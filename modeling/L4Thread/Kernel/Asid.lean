import L4Thread.Lib.Ring

/-!
# The ASID cache

`asid.h` with `CONFIG_PREEMPT_ASIDS`, for any number `N` of ASIDs and any type `α` of `asid_t`
objects. An index of `-1` is `none`, and an access to the array at `-1` or behind its end has no
result.
-/

namespace L4Thread

/-- `asids[i].asid`: -1, a null pointer, or the object that holds the ASID. -/
inductive AsidSlot (α : Type)
  | invalid
  | free
  | holder (a : α)
  deriving DecidableEq

/-- `asid_link_t`. -/
structure AsidLink (N : Nat) (α : Type) extends Ring.Link (Fin N) where
  asid : AsidSlot α

/-- `asid_cache_t`. -/
structure AsidCache (N : Nat) (α : Type) where
  asids : Fin N → AsidLink N α
  firstFree : Option (Fin N)
  lruHead : Option (Fin N)

namespace AsidCache

variable {N : Nat} {α : Type}

/-- `init`. -/
def init : AsidCache N α := ⟨fun _ => ⟨⟨none, none⟩, .invalid⟩, none, none⟩

def setNext (c : AsidCache N α) (i : Fin N) (v : Option (Fin N)) : AsidCache N α :=
  { c with asids := Function.update c.asids i { c.asids i with next := v } }

def setPrev (c : AsidCache N α) (i : Fin N) (v : Option (Fin N)) : AsidCache N α :=
  { c with asids := Function.update c.asids i { c.asids i with prev := v } }

def setAsid (c : AsidCache N α) (i : Fin N) (v : AsidSlot α) : AsidCache N α :=
  { c with asids := Function.update c.asids i { c.asids i with asid := v } }

/-- The index of a `hw_asid_t`. -/
def index? (idx : Int) : Option (Fin N) :=
  if h : 0 ≤ idx ∧ idx < N then some ⟨idx.toNat, by omega⟩ else none

/-- `*prev = v`, where `prev` points at `first_free` or at a `next` field. -/
def write (c : AsidCache N α) (prev : Option (Fin N)) (v : Option (Fin N)) : AsidCache N α :=
  match prev with
  | none => { c with firstFree := v }
  | some i => c.setNext i v

/-- The loop of `set_valid`, from the index `idx` on for `n` more indices. -/
def setValidLoop (c : AsidCache N α) (prev : Option (Fin N)) (idx : Int) :
    Nat → Option (AsidCache N α × Option (Fin N))
  | 0 => some (c, prev)
  | n + 1 =>
    match index? idx with
    | none => none
    | some i =>
      match (c.asids i).asid with
      | .invalid => ((c.write prev (some i)).setAsid i .free).setValidLoop (some i) (idx + 1) n
      | _ => c.setValidLoop prev (idx + 1) n

/-- `set_valid`. -/
def setValid (c : AsidCache N α) (start stop : Int) : Option (AsidCache N α) := do
  let (d, prev) ← c.setValidLoop none start (stop + 1 - start).toNat
  return d.write prev c.firstFree

/-- The first part of `move_asid`. -/
def remove (c : AsidCache N α) (idx : Fin N) : Option (AsidCache N α) :=
  let prev := (c.asids idx).prev
  let next := (c.asids idx).next
  let c := if c.lruHead = some idx then { c with lruHead := next } else c
  if prev ≠ next then
    match prev, next with
    | some p, some n => some ((c.setNext p next).setPrev n prev)
    | _, _ => none
  else some { c with lruHead := none }

/-- The second part of `move_asid`. -/
def insert (c : AsidCache N α) (idx : Fin N) : Option (AsidCache N α) :=
  let (prev, next) :=
    match c.lruHead with
    | some h => ((c.asids h).prev, h)
    | none => (some idx, idx)
  match prev with
  | none => none
  | some p =>
    let c := (c.setPrev next (some idx)).setNext p (some idx)
    let c := (c.setPrev idx prev).setNext idx (some next)
    some { c with lruHead := some idx }

/-- `move_asid`. -/
def moveAsid (c : AsidCache N α) (idx : Fin N) (remove insert : Bool) : Option (AsidCache N α) := do
  let c ← if remove then c.remove idx else some c
  if insert then c.insert idx else some c

end AsidCache

/-- The cache and the `asid` field of every `asid_t` object. -/
structure AsidState (N : Nat) (α : Type) where
  cache : AsidCache N α
  asid : α → Option (Fin N)

namespace AsidState

variable {N : Nat} {α : Type} [DecidableEq α]

def init : AsidState N α := ⟨AsidCache.init, fun _ => none⟩

/-- The ASID that `allocate` takes, from the free list or from another object. -/
def take (s : AsidState N α) : Option (AsidState N α × Fin N) :=
  match s.cache.firstFree with
  | none => do
    let h ← s.cache.lruHead
    let idx ← (s.cache.asids h).prev
    let c ← s.cache.moveAsid idx true false
    match (c.asids idx).asid with
    | .holder b => some (⟨c, Function.update s.asid b none⟩, idx)
    | _ => none
  | some idx =>
    some ({ s with cache := { s.cache with firstFree := (s.cache.asids idx).next } }, idx)

/-- `allocate`. -/
def allocate (s : AsidState N α) (a : α) : Option (AsidState N α × Fin N) := do
  let (s, idx) ← s.take
  let c ← s.cache.moveAsid idx false true
  return ({ s with cache := c.setAsid idx (.holder a) }, idx)

/-- `asid_t::get`. -/
def get (s : AsidState N α) (a : α) : Option (AsidState N α) :=
  match s.asid a with
  | none => do
    let (s, idx) ← s.allocate a
    return { s with asid := Function.update s.asid a (some idx) }
  | some idx => do
    let c ← s.cache.moveAsid idx true true
    return { s with cache := c }

/-- `asid_t::release`. -/
def release (s : AsidState N α) (a : α) : Option (AsidState N α) :=
  match s.asid a with
  | none => some s
  | some idx => do
    let c ← s.cache.moveAsid idx true false
    let c := (c.setAsid idx .free).setNext idx c.firstFree
    return ⟨{ c with firstFree := some idx }, Function.update s.asid a none⟩

def setValid (s : AsidState N α) (start stop : Int) : Option (AsidState N α) := do
  return { s with cache := ← s.cache.setValid start stop }

end AsidState

end L4Thread
