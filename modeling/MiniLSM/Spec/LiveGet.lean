import MiniLSM.Spec.LiveScan

/-!
# A search in a database that is being written

`Get` takes references to the memtables and the tables under the lock and searches them without
it. The tables and `imm_` do not change any more. `mem_` goes on being written until a rotation
takes it out of use, and `Get` sees it as it is when it comes to search it.
-/

namespace MiniLSM

/-- A call of `Get` that has its references. `mem` is the memtable that was `mem_` when it took them,
as it is now, and `isMem` tells whether it still is `mem_`. -/
structure LiveGet where
  world : World
  key : Bytes
  mem : MemTable
  imm : Option MemTable
  levels : Levels
  isMem : Bool := true

namespace LiveGet

/-- The section of `Get`. -/
def acquire (w : World) (key : Bytes) : LiveGet :=
  { world := w, key := key, mem := w.db.mem, imm := w.db.imm, levels := w.db.levels }

/-- A step of the database. `none`: the label cannot be taken here. -/
def step (s : LiveGet) : Label → Option LiveGet
  | .reopen .. => none
  | l => do
    let w' ← s.world.step l
    if s.isMem && !LiveScan.rotates s.world w' then return { s with world := w', mem := w'.db.mem }
    else return { s with world := w', isMem := false }

/-- The search behind the section, when it comes to `mem` now. -/
def search (s : LiveGet) : Checked (Status × Option Bytes) :=
  ({ s.world.db with mem := s.mem, imm := s.imm, levels := s.levels } : DB).get s.key

end LiveGet

end MiniLSM
