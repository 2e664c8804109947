import Rtfsc.Machine.Compare

/-!
# redis: string objects

`object.c`: a string object holds its bytes, or, where they are the canonical text of a `long`, the
number itself. Objects are shared by reference: `robj *` is an address of the memory, and two
pointers are compared by their addresses. Objects here are in memory, with `storage` equal to
`REDIS_VM_MEMORY`.
-/

namespace Rtfsc.Redis

open Rtfsc.Machine

/-- `type`, `encoding` and `ptr` of an object. An aggregate is a list, a set, a sorted set or a hash;
nothing here looks behind its `ptr`. -/
inductive Value
  /-- `REDIS_STRING`, `REDIS_ENCODING_RAW`: the bytes of the sds. -/
  | raw (s : CStr)
  /-- `REDIS_STRING`, `REDIS_ENCODING_INT`: the number that `ptr` is. -/
  | int (v : Int64)
  | aggregate (ptr : UInt64)
deriving DecidableEq

namespace Value

/-- `type == REDIS_STRING`. -/
def isString : Value → Bool
  | aggregate _ => false
  | _ => true

/-- `encoding == REDIS_ENCODING_RAW`. -/
def isRaw : Value → Bool
  | raw _ => true
  | _ => false

/-- `encoding == REDIS_ENCODING_INT`. -/
def isInt : Value → Bool
  | int _ => true
  | _ => false

/-- `ptr` as a machine word, of an object that is not raw. -/
def word : Value → UInt64
  | raw _ => 0
  | int v => v.toUInt64
  | aggregate p => p

end Value

/-- `robj`. -/
structure Robj where
  value : Value
  refcount : Int
deriving DecidableEq

/-- The address of an object. -/
abbrev Addr := Nat

/-- The objects by address, `none` at an address that has been freed. -/
abbrev Memory := List (Option Robj)

namespace Memory

/-- The object at an address. -/
def read (m : Memory) (a : Addr) : Outcome Robj :=
  match m[a]? with
  | some (some o) => .ok o
  | _ => .error .nullPointer

/-- `createObject`: `zmalloc` returns an address not in use. -/
def createObject (m : Memory) (v : Value) : Memory × Addr := (m ++ [some ⟨v, 1⟩], m.length)

theorem read_eq_ok {m : Memory} {a : Addr} {o : Robj} : m.read a = .ok o ↔ m[a]? = some (some o) := by
  unfold read
  split
  · next o' h => simp [h]
  · next h =>
    refine ⟨fun h' => ?_, fun h' => absurd h' (h o)⟩
    cases h'

theorem read_createObject (m : Memory) (v : Value) :
    read (m.createObject v).1 (m.createObject v).2 = .ok ⟨v, 1⟩ := by
  rw [read_eq_ok, createObject]
  simp

theorem read_set {m : Memory} {a : Addr} {o o' : Robj} (h : m.read a = .ok o) :
    read (m.set a (some o')) a = .ok o' := by
  rw [read_eq_ok] at h ⊢
  have hlt := (List.getElem?_eq_some_iff.mp h).1
  rw [List.getElem?_set_self hlt]

theorem read_set_ne {m : Memory} {a b : Addr} {o : Option Robj} (h : a ≠ b) :
    read (m.set a o) b = m.read b := by
  unfold read
  rw [List.getElem?_set_ne h]

end Memory

/-- The functions of `util.c` and `sds.c` that `object.c` calls. -/
structure Util where
  ll2string : Int64 → CStr
  isStringRepresentableAsLong : CStr → Option Int64
  sdscmp : CStr → CStr → Int

/-- What they are documented to do: `ll2string` writes the decimal text, exactly the canonical texts
represent a `long`, and `sdscmp` applies `memcmp` to the common length and then compares the
lengths. -/
structure Util.Documented (u : Util) : Prop where
  ll2string : ∀ v, u.ll2string v = decimalText v
  isStringRepresentableAsLong : ∀ s v,
    u.isStringRepresentableAsLong s = some v ↔ s = decimalText v
  sdscmp : ∀ s t, u.sdscmp s t =
    if memcmp s t (min s.length t.length) ≠ 0 then memcmp s t (min s.length t.length)
    else (s.length : Int) - t.length

/-- What `tryObjectEncoding` reads of the server: `server.maxmemory`, whether the caller is
`server.mainthread`, and the `shared.integers`, one object for each number below
`REDIS_SHARED_INTEGERS`. -/
structure Server where
  maxmemory : Nat
  mainthread : Bool
  integers : List Addr

/-- `shared.integers[i]` is an object that holds `i`. -/
def Server.SharedIn (srv : Server) (m : Memory) : Prop :=
  ∀ (i : Nat) (a : Addr), srv.integers[i]? = some a →
    ∃ r, m.read a = .ok ⟨.int (Int64.ofInt i), r⟩

section

variable (u : Util) (m : Memory)

/-- `incrRefCount`. -/
def incrRefCount (o : Addr) : Outcome Memory := do
  let obj ← m.read o
  return m.set o (some { obj with refcount := obj.refcount + 1 })

/-- `decrRefCount` of an object in memory. -/
def decrRefCount (o : Addr) : Outcome Memory := do
  let obj ← m.read o
  if obj.refcount ≤ 0 then .error .assertFailed
  else if obj.refcount - 1 = 0 then return m.set o none
  else return m.set o (some { obj with refcount := obj.refcount - 1 })

/-- `shared.integers[value]`, where a shared object may be used for the number. -/
def sharedInteger (srv : Server) (value : Int64) : Option Addr :=
  if srv.maxmemory = 0 ∧ 0 ≤ value.toInt ∧ srv.mainthread = true then
    srv.integers[value.toInt.toNat]?
  else none

/-- `tryObjectEncoding`. -/
def tryObjectEncoding (srv : Server) (o : Addr) : Outcome (Memory × Addr) := do
  let obj ← m.read o
  match obj.value with
  | .raw s =>
    if obj.refcount > 1 then return (m, o)
    else match u.isStringRepresentableAsLong s with
      | none => return (m, o)
      | some value =>
        match sharedInteger srv value with
        | some shared => do
          let m ← decrRefCount m o
          let m ← incrRefCount m shared
          return (m, shared)
        | none => return (m.set o (some { obj with value := .int value }), o)
  | _ => return (m, o)

/-- `getDecodedObject`. -/
def getDecodedObject (o : Addr) : Outcome (Memory × Addr) := do
  let obj ← m.read o
  match obj.value with
  | .raw _ => return (← incrRefCount m o, o)
  | .int v => return m.createObject (.raw (u.ll2string v))
  | .aggregate _ => .error .assertFailed

/-- `compareStringObjects`: two sds are compared whole, everything else as C strings. -/
def compareStringObjects (a b : Addr) : Outcome Int := do
  let oa ← m.read a
  let ob ← m.read b
  if !(oa.value.isString && ob.value.isString) then .error .assertFailed
  else if a = b then return 0
  else match oa.value, ob.value with
    | .raw s, .raw t => return u.sdscmp s t
    | .raw s, v => return strcmp (cstr s) (u.ll2string v.word.toInt64)
    | v, .raw t => return strcmp (u.ll2string v.word.toInt64) (cstr t)
    | v, w => return strcmp (u.ll2string v.word.toInt64) (u.ll2string w.word.toInt64)

/-- `equalStringObjects`. -/
def equalStringObjects (a b : Addr) : Outcome Bool := do
  let oa ← m.read a
  let ob ← m.read b
  if !oa.value.isRaw && !ob.value.isRaw then return oa.value.word == ob.value.word
  else return (← compareStringObjects u m a b) == 0

/-- `stringObjectLen`. -/
def stringObjectLen (o : Addr) : Outcome Nat := do
  let obj ← m.read o
  match obj.value with
  | .raw s => return s.length
  | .int v => return (u.ll2string v).length
  | .aggregate _ => .error .assertFailed

/-- `getLongLongFromObject(o, &target)`: the number, or `none` for `REDIS_ERR`. -/
def getLongLongFromObject (o : Option Addr) (errno : Int) : Outcome (Option Int64) :=
  match o with
  | none => return some 0
  | some o => do
    let obj ← m.read o
    match obj.value with
    | .raw s =>
      let (value, eptr, errno) := strtoll (cstr s) errno
      if eptr ≠ [] then return none
      else if errno = erange ∧ (value = Int64.minValue ∨ value = Int64.maxValue) then return none
      else return some value
    | .int v => return some v
    | .aggregate _ => .error .assertFailed

end

end Rtfsc.Redis
