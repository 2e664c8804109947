import Rtfsc.Redis.Object

/-!
# redis: the two encodings of a string

Whether a string is kept as bytes or as a number should not be seen from outside. Two accessors let
it be seen. `compareStringObjects` looks at raw bytes only up to the first NUL when the other object
is a number, so a number and the same text with a NUL behind it are equal to it.
`getLongLongFromObject` takes the `errno` left by an earlier call for its own when a raw string reads
as the smallest or the largest `long long`.
-/

namespace Rtfsc.Redis

open Rtfsc.Machine

variable {u : Util} {m : Memory} {a b : Addr} {oa ob : Robj} {s t : CStr} {e e₁ e₂ : Int}

/-- `tryObjectEncoding` may leave the string `s` in an object with this value. -/
def EncodedAs (u : Util) (s : CStr) (v : Value) : Prop :=
  ∃ srv m o r m' o' r', Server.SharedIn srv m ∧ m.read o = .ok ⟨.raw s, r⟩ ∧
    tryObjectEncoding u m srv o = .ok (m', o') ∧ m'.read o' = .ok ⟨v, r'⟩

/-! ## What `tryObjectEncoding` leaves behind -/

theorem decrRefCount_ok {m' : Memory} {o : Addr} (h : decrRefCount m o = .ok m') :
    ∃ x, m' = m.set o x := by
  obtain ⟨obj, -, h⟩ := bind_eq_ok.mp h
  split at h
  · cases h
  · split at h
    · exact ⟨_, (Except.ok.inj h).symm⟩
    · exact ⟨_, (Except.ok.inj h).symm⟩

theorem incrRefCount_ok {m' : Memory} {o : Addr} (h : incrRefCount m o = .ok m') :
    ∃ obj, m.read o = .ok obj ∧ m'.read o = .ok { obj with refcount := obj.refcount + 1 } := by
  obtain ⟨obj, hobj, h⟩ := bind_eq_ok.mp h
  cases h
  exact ⟨obj, hobj, Memory.read_set hobj⟩

/-- A shared integer holds the number it stands for. -/
theorem sharedInteger_some {srv : Server} {v : Int64} {c : Addr} (hs : srv.SharedIn m)
    (h : sharedInteger srv v = some c) : ∃ r, m.read c = .ok ⟨.int v, r⟩ := by
  unfold sharedInteger at h
  split at h
  · next hv =>
    obtain ⟨r, hr⟩ := hs _ c h
    rw [Int.toNat_of_nonneg hv.2.1, Int64.ofInt_toInt] at hr
    exact ⟨r, hr⟩
  · cases h

/-- An encoded string is kept as its bytes, or as the number whose canonical text it is. -/
theorem EncodedAs.cases (hu : u.Documented) {v : Value} (h : EncodedAs u s v) :
    v = .raw s ∨ ∃ n, v = .int n ∧ s = decimalText n := by
  obtain ⟨srv, m, o, r, m', o', r', hshared, hread, htry, hread'⟩ := h
  unfold tryObjectEncoding at htry
  rw [hread, ok_bind] at htry
  dsimp only at htry
  split at htry
  · cases htry
    rw [hread] at hread'
    cases hread'
    exact .inl rfl
  · split at htry
    · cases htry
      rw [hread] at hread'
      cases hread'
      exact .inl rfl
    · next n hn =>
      have hs := (hu.isStringRepresentableAsLong s n).mp hn
      refine .inr ⟨n, ?_, hs⟩
      split at htry
      · next c hc =>
        obtain ⟨rc, hrc⟩ := sharedInteger_some hshared hc
        obtain ⟨m₁, hdecr, htry⟩ := bind_eq_ok.mp htry
        obtain ⟨m₂, hincr, htry⟩ := bind_eq_ok.mp htry
        cases htry
        obtain ⟨x, rfl⟩ := decrRefCount_ok hdecr
        obtain ⟨obj, hobj, hobj'⟩ := incrRefCount_ok hincr
        -- the object that gives way is raw, so it is not the shared one
        have hne : o ≠ o' := by
          rintro rfl
          rw [hread] at hrc
          cases hrc
        rw [Memory.read_set_ne hne, hrc] at hobj
        cases hobj
        rw [hobj'] at hread'
        cases hread'
        rfl
      · cases htry
        rw [Memory.read_set hread] at hread'
        cases hread'
        rfl

/-- A shared raw string is left alone. -/
theorem encodedAs_raw (u : Util) (s : CStr) : EncodedAs u s (.raw s) :=
  ⟨⟨0, false, []⟩, [some ⟨.raw s, 2⟩], 0, 2, [some ⟨.raw s, 2⟩], 0, 2, nofun, rfl, rfl, rfl⟩

/-- A canonical text may become its number. -/
theorem encodedAs_int (hu : u.Documented) (n : Int64) : EncodedAs u (decimalText n) (.int n) := by
  refine ⟨⟨0, false, []⟩, [some ⟨.raw (decimalText n), 1⟩], 0, 1, [some ⟨.int n, 1⟩], 0, 1, nofun,
    rfl, ?_, rfl⟩
  have hn := (hu.isStringRepresentableAsLong (decimalText n) n).mpr rfl
  have hnone : sharedInteger ⟨0, false, []⟩ n = none := by simp [sharedInteger]
  unfold tryObjectEncoding
  simp only [Memory.read, List.getElem?_cons_zero, ok_bind, hn, hnone]
  rfl

/-! ## One accessor at a time -/

theorem EncodedAs.isString (hu : u.Documented) {v : Value} (h : EncodedAs u s v) :
    v.isString = true := by
  rcases h.cases hu with rfl | ⟨n, rfl, -⟩
  · rfl
  · rfl

/-- The object is not a number whose text `s` the string `t` continues behind a NUL. -/
def Clear (v : Value) (s t : CStr) : Prop := v.isInt = true → ¬ (s ++ [nul]) <+: t

theorem clear_raw (s t : CStr) : Clear (.raw s) s t := nofun

/-- No text of a number is another one's with a NUL behind it. -/
theorem clear_decimalText (v : Value) (s : CStr) (n : Int64) : Clear v s (decimalText n) :=
  fun _ h => nul_notMem_decimalText n (h.subset (by simp))

/-- `compareStringObjects` has the sign of the byte-wise comparison exactly when neither object is a
number whose text the other one continues behind a NUL. -/
theorem compareStringObjects_orders (hu : u.Documented) (ha : m.read a = .ok oa)
    (hb : m.read b = .ok ob) (hs : EncodedAs u s oa.value) (ht : EncodedAs u t ob.value) :
    ∃ r, compareStringObjects u m a b = .ok r ∧
      (Orders r s t ↔ Clear oa.value s t ∧ Clear ob.value t s) := by
  unfold compareStringObjects
  rw [ha, hb, ok_bind, ok_bind, hs.isString hu, ht.isString hu]
  rw [if_neg (by decide)]
  by_cases hab : a = b
  · subst hab
    rw [ha] at hb
    cases hb
    have hst : s = t := by
      rcases hs.cases hu with h | ⟨n, h, rfl⟩ <;> rcases ht.cases hu with h' | ⟨n', h', rfl⟩ <;>
        rw [h] at h' <;> cases h' <;> rfl
    subst hst
    refine ⟨0, by rw [if_pos rfl]; rfl, fun _ => ?_, fun _ => orders_of_eq rfl⟩
    have hself : ¬ (s ++ [nul]) <+: s := by
      intro h
      have hlen := h.length_le
      rw [List.length_append, List.length_singleton] at hlen
      omega
    exact ⟨fun _ => hself, fun _ => hself⟩
  · rw [if_neg hab]
    rcases hs.cases hu with h | ⟨n, h, rfl⟩ <;> rcases ht.cases hu with h' | ⟨n', h', rfl⟩ <;>
      rw [h, h'] <;> dsimp only [Value.word]
    · refine ⟨_, rfl, ?_⟩
      rw [hu.sdscmp]
      exact ⟨fun _ => ⟨clear_raw s t, clear_raw t s⟩, fun _ => memcmp_orders s t⟩
    · refine ⟨_, rfl, ?_⟩
      rw [hu.ll2string, Int64.toInt64_toUInt64, strcmp_cstr_orders_left (nul_notMem_decimalText n')]
      exact ⟨fun hp => ⟨clear_raw s _, fun _ => hp⟩, fun hp => hp.2 rfl⟩
    · refine ⟨_, rfl, ?_⟩
      rw [hu.ll2string, Int64.toInt64_toUInt64, strcmp_cstr_orders (nul_notMem_decimalText n)]
      exact ⟨fun hp => ⟨fun _ => hp, clear_raw t _⟩, fun hp => hp.1 rfl⟩
    · refine ⟨_, rfl, ?_⟩
      rw [hu.ll2string, hu.ll2string, Int64.toInt64_toUInt64, Int64.toInt64_toUInt64]
      exact ⟨fun _ => ⟨clear_decimalText _ _ n', clear_decimalText _ _ n⟩, fun _ =>
        strcmp_orders (nul_notMem_decimalText n) (nul_notMem_decimalText n')⟩

/-- `equalStringObjects` is right where `compareStringObjects` is. -/
theorem equalStringObjects_of_orders (hu : u.Documented) (ha : m.read a = .ok oa)
    (hb : m.read b = .ok ob) (hs : EncodedAs u s oa.value) (ht : EncodedAs u t ob.value) {r : Int}
    (hr : compareStringObjects u m a b = .ok r) (ho : Orders r s t) :
    equalStringObjects u m a b = .ok (decide (s = t)) := by
  have hcompare : (r == 0) = decide (s = t) := by
    rw [Bool.eq_iff_iff, beq_iff_eq, decide_eq_true_eq]
    exact ho.eq_zero
  unfold equalStringObjects
  rw [ha, hb, ok_bind, ok_bind, hr, ok_bind, hcompare]
  split
  · next hraw =>
    -- two numbers: their words are equal exactly when their texts are
    rcases hs.cases hu with h | ⟨n, h, rfl⟩
    · simp [h, Value.isRaw] at hraw
    rcases ht.cases hu with h' | ⟨n', h', rfl⟩
    · simp [h', Value.isRaw] at hraw
    rw [h, h', pure_eq_ok]
    congr 1
    rw [Bool.eq_iff_iff, beq_iff_eq, decide_eq_true_eq]
    constructor
    · intro hword
      rw [← Int64.toInt64_toUInt64 n, ← Int64.toInt64_toUInt64 n']
      exact congrArg (fun w : UInt64 => decimalText w.toInt64) hword
    · intro htext
      rw [decimalText_inj htext]
  · rfl

theorem stringObjectLen_eq (hu : u.Documented) (ha : m.read a = .ok oa)
    (hs : EncodedAs u s oa.value) : stringObjectLen u m a = .ok s.length := by
  unfold stringObjectLen
  rw [ha, ok_bind]
  rcases hs.cases hu with h | ⟨n, h, rfl⟩
  · rw [h]
    rfl
  · rw [h]
    dsimp only
    rw [hu.ll2string]
    rfl

/-- `getDecodedObject` returns an object with the bytes. -/
theorem getDecodedObject_read (hu : u.Documented) (ha : m.read a = .ok oa)
    (hs : EncodedAs u s oa.value) : ∃ m' o' r, getDecodedObject u m a = .ok (m', o') ∧
      m'.read o' = .ok ⟨.raw s, r⟩ := by
  unfold getDecodedObject incrRefCount
  rw [ha, ok_bind]
  rcases hs.cases hu with h | ⟨n, h, rfl⟩
  · rw [h]
    exact ⟨_, a, oa.refcount + 1, rfl, by rw [Memory.read_set ha, h]⟩
  · rw [h]
    dsimp only
    rw [hu.ll2string]
    exact ⟨_, _, 1, rfl, Memory.read_createObject m _⟩

/-- The number a string reads as. -/
def numberOf (s : CStr) : Option Int64 :=
  let (v, rest, errno) := strtoll (cstr s) 0
  if rest = [] ∧ errno = 0 then some v else none

/-- The string reads as the smallest or the largest `long long`. -/
def ReadsLimit (s : CStr) : Prop :=
  numberOf s = some Int64.minValue ∨ numberOf s = some Int64.maxValue

instance (s : CStr) : Decidable (ReadsLimit s) := inferInstanceAs (Decidable (_ ∨ _))

theorem numberOf_decimalText (n : Int64) : numberOf (decimalText n) = some n := by
  rw [numberOf, cstr_eq_self (nul_notMem_decimalText n), strtoll_decimalText]
  rfl

/-- `getLongLongFromObject` returns the number the string reads as, unless the object is raw, `errno`
was `ERANGE` before the call and the number is one of the limits. -/
theorem getLongLongFromObject_eq (hu : u.Documented) (ha : m.read a = .ok oa)
    (hs : EncodedAs u s oa.value) : getLongLongFromObject m (some a) e =
      .ok (if ReadsLimit s ∧ oa.value.isRaw = true ∧ e = erange then none else numberOf s) := by
  unfold getLongLongFromObject
  dsimp only
  rw [ha, ok_bind]
  rcases hs.cases hu with h | ⟨n, h, rfl⟩
  · rw [h]
    dsimp only
    rcases strtoll_cases (cstr s) with ⟨v, rest, hall⟩ | ⟨v, rest, hv, hall⟩
    · have hnumber : numberOf s = if rest = [] then some v else none := by
        rw [numberOf, hall]
        simp
      rw [hall]
      dsimp only
      by_cases hrest : rest = []
      · rw [if_neg (not_not.mpr hrest)]
        rw [if_pos hrest] at hnumber
        have hlimit : ReadsLimit s ↔ v = Int64.minValue ∨ v = Int64.maxValue := by
          rw [ReadsLimit, hnumber, Option.some_inj, Option.some_inj]
        have hraw : (Value.raw s).isRaw = true := rfl
        simp only [hlimit, hnumber, hraw, true_and, and_comm]
        split
        · rfl
        · rfl
      · rw [if_neg hrest] at hnumber
        rw [if_pos hrest, hnumber, ite_self]
        rfl
    · have hnumber : numberOf s = none := by
        rw [numberOf, hall]
        exact if_neg (fun h0 => absurd h0.2 (by decide))
      rw [hall, hnumber, ite_self]
      dsimp only
      split
      · rfl
      · rw [if_pos ⟨rfl, hv⟩]
        rfl
  · rw [h, numberOf_decimalText, if_neg (fun hraw => absurd hraw.2.1 Bool.false_ne_true)]
    rfl

/-! ## All accessors -/

/-- Nothing shows which of its encodings either of two strings has: not `equalStringObjects`, not
`compareStringObjects`, `stringObjectLen` or `getDecodedObject`, nor `getLongLongFromObject` called
with any two values of `errno`. -/
structure Transparent (u : Util) (m : Memory) (a b : Addr) (s t : CStr) (e₁ e₂ : Int) : Prop where
  equal : equalStringObjects u m a b = .ok (decide (s = t))
  compare : ∃ r, compareStringObjects u m a b = .ok r ∧ Orders r s t
  len : stringObjectLen u m a = .ok s.length ∧ stringObjectLen u m b = .ok t.length
  decoded : (∃ m' o' r, getDecodedObject u m a = .ok (m', o') ∧ m'.read o' = .ok ⟨.raw s, r⟩) ∧
    ∃ m' o' r, getDecodedObject u m b = .ok (m', o') ∧ m'.read o' = .ok ⟨.raw t, r⟩
  longLong : ∃ x y, getLongLongFromObject m (some a) e₁ = .ok x ∧
    getLongLongFromObject m (some b) e₂ = .ok y ∧ (s = t → x = y)

/-- The call on this object would be refused because of an old `errno`. -/
def Stale (v : Value) (e : Int) : Prop := v.isRaw = true ∧ e = erange

theorem longLong_eq_iff {v w : Value} :
    (if ReadsLimit s ∧ v.isRaw = true ∧ e₁ = erange then none else numberOf s) =
      (if ReadsLimit s ∧ w.isRaw = true ∧ e₂ = erange then none else numberOf s) ↔
    (ReadsLimit s → (Stale v e₁ ↔ Stale w e₂)) := by
  by_cases hl : ReadsLimit s
  · have hsome : numberOf s ≠ none := by
      rcases hl with h | h <;> rw [h] <;> exact nofun
    simp only [hl, true_and, forall_const]
    change _ ↔ (_ ∧ _ ↔ _ ∧ _)
    by_cases hv : v.isRaw = true ∧ e₁ = erange <;> by_cases hw : w.isRaw = true ∧ e₂ = erange <;>
      simp [hv, hw, hsome, hsome.symm]
  · simp only [hl, false_and, if_false, false_implies]

/-- The encodings of two strings do not show exactly when neither is kept as a number whose text the
other string continues behind a NUL, and, for equal strings that read as the smallest or the largest
`long long`, the calls are both or neither made on a raw object with `errno` left at `ERANGE`. -/
theorem transparent_iff (hu : u.Documented) (ha : m.read a = .ok oa) (hb : m.read b = .ok ob)
    (hs : EncodedAs u s oa.value) (ht : EncodedAs u t ob.value) :
    Transparent u m a b s t e₁ e₂ ↔
      Clear oa.value s t ∧ Clear ob.value t s ∧
      (s = t → ReadsLimit s → (Stale oa.value e₁ ↔ Stale ob.value e₂)) := by
  obtain ⟨r, hr, hiff⟩ := compareStringObjects_orders hu ha hb hs ht
  have hla := getLongLongFromObject_eq hu ha hs (e := e₁)
  have hlb := getLongLongFromObject_eq hu hb ht (e := e₂)
  constructor
  · rintro ⟨-, ⟨r', hr', ho⟩, -, -, ⟨x, y, hx, hy, hxy⟩⟩
    rw [hr] at hr'
    cases hr'
    obtain ⟨hab, hba⟩ := hiff.mp ho
    refine ⟨hab, hba, fun hst => ?_⟩
    rw [hla] at hx
    rw [hlb] at hy
    cases hx
    cases hy
    subst hst
    exact longLong_eq_iff.mp (hxy rfl)
  · rintro ⟨hab, hba, hlimit⟩
    have ho := hiff.mpr ⟨hab, hba⟩
    refine ⟨equalStringObjects_of_orders hu ha hb hs ht hr ho, ⟨r, hr, ho⟩,
      ⟨stringObjectLen_eq hu ha hs, stringObjectLen_eq hu hb ht⟩,
      ⟨getDecodedObject_read hu ha hs, getDecodedObject_read hu hb ht⟩,
      ⟨_, _, hla, hlb, ?_⟩⟩
    rintro rfl
    exact longLong_eq_iff.mpr (hlimit rfl)

/-- `util.c` and `sds.c` as they are documented: `isStringRepresentableAsLong` reads the text with
`strtoll` and accepts it when the number is written the same way. -/
def documentedUtil : Util where
  ll2string := decimalText
  isStringRepresentableAsLong s :=
    let (v, rest, _) := strtoll (cstr s) 0
    if rest = [] ∧ s = decimalText v then some v else none
  sdscmp s t :=
    if memcmp s t (min s.length t.length) ≠ 0 then memcmp s t (min s.length t.length)
    else (s.length : Int) - t.length

theorem documentedUtil_documented : documentedUtil.Documented where
  ll2string _ := rfl
  isStringRepresentableAsLong s v := by
    constructor
    · intro h
      unfold documentedUtil at h
      dsimp only at h
      split at h
      · next hs =>
        cases h
        exact hs.2
      · cases h
    · rintro rfl
      unfold documentedUtil
      dsimp only
      rw [cstr_eq_self (nul_notMem_decimalText v), strtoll_decimalText]
      exact if_pos ⟨rfl, rfl⟩
  sdscmp _ _ := rfl

/-- The number 12 in front of the string `7`, called with `ERANGE` left behind. -/
theorem transparent_twelve_seven :
    Transparent documentedUtil [some ⟨.int 12, 1⟩, some ⟨.raw ['7'], 1⟩] 0 1 ['1', '2'] ['7']
      erange erange := by
  have hu := documentedUtil_documented
  refine (transparent_iff hu rfl rfl (encodedAs_int hu 12) (encodedAs_raw _ _)).mpr ⟨?_, ?_, ?_⟩
  · exact fun _ => by decide
  · exact nofun
  · exact fun h => absurd h (by decide)

/-- The number 12 and the four bytes `1 2 NUL x` are equal strings to `equalStringObjects`, and the
largest `long long` is a number in one encoding and an error in the other when an earlier call has
left `ERANGE` behind. -/
theorem not_transparent :
    (EncodedAs documentedUtil ['1', '2'] (.int 12) ∧
      EncodedAs documentedUtil ['1', '2', nul, 'x'] (.raw ['1', '2', nul, 'x']) ∧
      ¬ Transparent documentedUtil [some ⟨.int 12, 1⟩, some ⟨.raw ['1', '2', nul, 'x'], 1⟩] 0 1
        ['1', '2'] ['1', '2', nul, 'x'] 0 0) ∧
    (EncodedAs documentedUtil (decimalText Int64.maxValue) (.int Int64.maxValue) ∧
      EncodedAs documentedUtil (decimalText Int64.maxValue) (.raw (decimalText Int64.maxValue)) ∧
      ¬ Transparent documentedUtil
        [some ⟨.int Int64.maxValue, 1⟩, some ⟨.raw (decimalText Int64.maxValue), 1⟩] 0 1
        (decimalText Int64.maxValue) (decimalText Int64.maxValue) erange erange) := by
  have hu := documentedUtil_documented
  refine ⟨⟨encodedAs_int hu 12, encodedAs_raw _ _, fun h => ?_⟩,
    encodedAs_int hu Int64.maxValue, encodedAs_raw _ _, fun h => ?_⟩
  · have hequal := h.equal
    revert hequal
    decide
  · obtain ⟨x, y, hx, hy, hxy⟩ := h.longLong
    cases hxy rfl
    rw [← hy] at hx
    revert hx
    decide

end Rtfsc.Redis
