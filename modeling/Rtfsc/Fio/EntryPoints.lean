import Rtfsc.Fio.OptionTable

/-!
# fio: job files and the command line

`parse_option` takes an option from a job file as the text `name=value`, `parse_cmd_option` takes
name and value from the command line. The first copies the text to an array of 64 characters.
-/

namespace Rtfsc.Fio

open Rtfsc.Machine

/-! ## Options of the table -/

/-- What every entry of the table keeps to: names without `=`, one entry for each name, and a
callback where the type needs one. -/
structure WellFormed (o : FioOption Word Callback) : Prop where
  noEquals : '=' ∉ o.name
  found : findOption options o.name = some o
  called : o.type = .str → o.cb.isSome = true

instance (o : FioOption Word Callback) : Decidable (WellFormed o) :=
  decidable_of_iff ('=' ∉ o.name ∧ findOption options o.name = some o ∧
      (o.type = .str → o.cb.isSome = true))
    ⟨fun h => ⟨h.1, h.2.1, h.2.2⟩, fun h => ⟨h.noEquals, h.found, h.called⟩⟩

theorem options_wellFormed : ∀ o ∈ options, WellFormed o := by decide +kernel

section

variable {ω κ : Type} [DecidableEq ω] [Zero ω] (next : ω → ω)
  (call : κ → CbArg → Vars ω → Int × Vars ω) {o : FioOption ω κ}

/-- A range is read whenever the text fits into the buffer. -/
theorem readRange_total {ptr : CStr} (h : ptr.length < 127) (e : Bool) :
    ∃ r, readRange ptr e = .ok r := by
  unfold readRange strncpy
  rw [if_pos h, ok_bind]
  cases strchr ptr '-' with
  | none => exact ⟨_, rfl⟩
  | some parts =>
    obtain ⟨p1, p2⟩ := parts
    dsimp only
    rcases checkRangeBytes p1 with ⟨_ | ul1, e1⟩
    · exact ⟨_, rfl⟩
    · rcases checkRangeBytes p2 with ⟨_ | ul2, e2⟩ <;> exact ⟨_, rfl⟩

/-- `__handle_option` has a value, whatever the argument, as long as a range is not too long. -/
theorem handleOptionPart_total (hcall : o.type = .str → o.cb.isSome = true) {ptr : CStr}
    (hlen : ptr.length < 127) (first more : Bool) (s : ParseState ω) :
    ∃ r, handleOptionPart next call o (some ptr) first more s = .ok r := by
  unfold handleOptionPart
  cases htype : o.type with
  | str =>
    obtain ⟨fn, hfn⟩ := Option.isSome_iff_exists.mp (hcall htype)
    simp only [hfn]
    exact ⟨_, rfl⟩
  | strStore => exact ⟨_, rfl⟩
  | range =>
    obtain ⟨⟨ends, e⟩, hread⟩ := readRange_total hlen s.erange
    dsimp only
    rw [hread, ok_bind]
    cases ends <;> exact ⟨_, rfl⟩
  | int =>
    dsimp only
    cases (checkInt ptr).1 with
    | none => exact ⟨_, rfl⟩
    | some il => cases o.cb <;> exact ⟨_, rfl⟩
  | strSet =>
    dsimp only
    cases o.cb <;> exact ⟨_, rfl⟩
  | strVal =>
    dsimp only
    cases (strToDecimal ptr s.erange (FioOptType.strVal != .strValTime)).1 with
    | none => exact ⟨_, rfl⟩
    | some ull => cases o.cb <;> exact ⟨_, rfl⟩
  | strValInt =>
    dsimp only
    cases (strToDecimal ptr s.erange (FioOptType.strValInt != .strValTime)).1 with
    | none => exact ⟨_, rfl⟩
    | some ull => cases o.cb <;> exact ⟨_, rfl⟩
  | strValTime =>
    dsimp only
    cases (strToDecimal ptr s.erange (FioOptType.strValTime != .strValTime)).1 with
    | none => exact ⟨_, rfl⟩
    | some ull => cases o.cb <;> exact ⟨_, rfl⟩

/-- `handle_option` has a value, whatever the argument, as long as a range is not too long. -/
theorem handleOption_total (hcall : o.type = .str → o.cb.isSome = true) {ptr : CStr}
    (hlen : ptr.length < 127) (s : ParseState ω) :
    ∃ r, handleOption next call o (some ptr) s = .ok r := by
  unfold handleOption
  rw [Option.bind_some]
  rcases strchr_cases ptr ',' with ⟨hnone, -⟩ | ⟨pre, post, hsome, hptr, -⟩
  · rw [hnone]
    exact handleOptionPart_total next call hcall hlen true false s
  · rw [hsome]
    have hpost : post.length < 127 := by
      rw [hptr, List.length_append, List.length_cons] at hlen
      omega
    obtain ⟨⟨r1, s1⟩, h1⟩ := handleOptionPart_total next call hcall hlen true true s
    obtain ⟨⟨r2, s2⟩, h2⟩ := handleOptionPart_total next call hcall hpost false false s1
    dsimp only
    rw [h1, ok_bind]
    dsimp only
    rw [h2]
    exact ⟨_, rfl⟩

end

/-! ## The two entry points -/

/-- Both entry points have a value for the option `name=value`, and the same one. -/
def EntryPointsAgree (loadIoengine : CStr → Option CStr) (name value : CStr) (s : ParseState Word) :
    Prop :=
  ∃ r,
    parseOption nextWord (Callback.call loadIoengine) (name ++ '=' :: value) options s = .ok r ∧
    parseCmdOption nextWord (Callback.call loadIoengine) name (some value) options s = .ok r

/-- An option of a job file whose text fits into the buffer is handled as on the command line. -/
theorem parseOption_eq_parseCmdOption {loadIoengine : CStr → Option CStr}
    {o : FioOption Word Callback} (ho : o ∈ options) {value : CStr}
    (hlen : (o.name ++ '=' :: value).length ≤ 62) (s : ParseState Word) :
    parseOption nextWord (Callback.call loadIoengine) (o.name ++ '=' :: value) options s =
      parseCmdOption nextWord (Callback.call loadIoengine) o.name (some value) options s := by
  have hwf := options_wellFormed o ho
  unfold parseOption parseCmdOption strncpy
  rw [if_pos (by omega), ok_bind, strchr_append hwf.noEquals]
  dsimp only
  rw [hwf.found]

end Rtfsc.Fio
