import MiniLSM.Spec.SSTable

/-!
# Threads that read blocks of one table

All readers of a table share `file_`, which has one position. `ReadBlock` holds `read_mutex_` from
before `fseek` to its return. A size that `resize` refuses throws in front of the file, and gives the
lock back at once; such calls are left out.
-/

namespace MiniLSM

/-- Where a call of `ReadBlock` is. -/
inductive ReadPlace
  /-- At the lock. -/
  | lock
  /-- Before `fseek`. -/
  | seek
  /-- At the head of the loop of `FilePRead`, with what it has read. -/
  | loop (buf : Bytes)
  /-- Before the release of the lock: whether all bytes were read, and those that were. -/
  | unlock (ok : Bool) (buf : Bytes)
  | returned (ok : Bool) (buf : Bytes)
  deriving DecidableEq

/-- A call of `ReadBlock`. `failed`: `fseek` has refused an offset that it takes, or `fread` has given
nothing in front of the end of the file. -/
structure BlockCall where
  offset : ℕ
  size : ℕ
  place : ReadPlace := .lock
  failed : Bool := false
  deriving DecidableEq

/-- A table, the position of `file_`, the call that holds `read_mutex_`, and all calls made so far. -/
structure BlockReads where
  table : SSTable
  pos : ℕ := 0
  owner : Option ℕ := none
  calls : List BlockCall := []

/-- A step of the calls of `ReadBlock`. -/
inductive ReadLabel
  /-- A thread calls `ReadBlock`, with a size that `resize` takes. -/
  | call (offset size : ℕ)
  | lock (i : ℕ)
  | fseek (i : ℕ) (ok : Bool)
  /-- One turn of the loop of `FilePRead`, in which `fread` gives at most `n` bytes. -/
  | turn (i n : ℕ)
  | unlock (i : ℕ)
  deriving DecidableEq

namespace BlockReads

/-- The `i`-th call goes on to `place`. -/
def goTo (s : BlockReads) (i : ℕ) (c : BlockCall) (place : ReadPlace) : BlockReads :=
  { s with calls := s.calls.set i { c with place := place } }

/-- A step. `none`: it cannot be taken here. -/
def step (s : BlockReads) : ReadLabel → Option BlockReads
  | .call offset size =>
    if 2 ^ 63 ≤ size then none
    else some { s with calls := s.calls ++ [{ offset := offset, size := size }] }
  | .lock i =>
    match s.calls[i]?, s.owner with
    | some c, none => if c.place = .lock then some ({ s with owner := some i }.goTo i c .seek) else none
    | _, _ => none
  | .fseek i ok =>
    match s.calls[i]? with
    | some c =>
      if c.place = .seek then
        -- the offset is cast to `long`
        if ok && decide (c.offset < 2 ^ 63) then some ({ s with pos := c.offset }.goTo i c (.loop []))
        else some (s.goTo i { c with failed := c.failed || decide (c.offset < 2 ^ 63) } (.unlock false []))
      else none
    | none => none
  | .turn i n =>
    match s.calls[i]? with
    | some c =>
      match c.place with
      | .loop buf =>
        if buf.length < c.size then
          let bytes := (s.table.data.drop s.pos).take (min n (c.size - buf.length))
          if bytes = [] then
            some (s.goTo i { c with failed := c.failed || decide (s.pos < s.table.data.length) } (.unlock false buf))
          else some ({ s with pos := s.pos + bytes.length }.goTo i c (.loop (buf ++ bytes)))
        else some (s.goTo i c (.unlock true buf))
      | _ => none
    | none => none
  | .unlock i =>
    match s.calls[i]? with
    | some c =>
      match c.place with
      | .unlock ok buf => some ({ s with owner := none }.goTo i c (.returned ok buf))
      | _ => none
    | none => none

end BlockReads

end MiniLSM
