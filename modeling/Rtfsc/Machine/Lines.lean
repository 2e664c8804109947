import Rtfsc.Machine.CString

/-!
# Reading lines

`fgets` reads a line, or as much of it as fits into the buffer. A reader that throws away what is blank
does not see where the rest of a line was cut, as long as the rest is blank.
-/

namespace Rtfsc.Machine

/-- White space, or a control character. -/
def isBlank (c : Char) : Bool := isspace c || iscntrl c

/-- At most so many characters, up to a newline and with it. -/
def takeLine : Nat → CStr → CStr
  | 0, _ => []
  | _, [] => []
  | n + 1, c :: cs => if c = '\n' then [c] else c :: takeLine n cs

/-- `fgets` into a buffer of `n` characters: what it reads, and the text behind it. Nothing at the end
of the text. -/
def fgets (n : Nat) (text : CStr) : Option (CStr × CStr) :=
  if text.isEmpty then none
  else some (takeLine (n - 1) text, text.drop (takeLine (n - 1) text).length)

/-- What may follow the text of a line: nothing, or a newline and the next lines. -/
def LineEnd (e : CStr) : Prop := e = [] ∨ ∃ t, e = '\n' :: t

/-- Blank text within a line. -/
def BlankText (b : CStr) : Prop := ∀ c ∈ b, isBlank c = true ∧ c ≠ '\n'

variable {n : Nat} {text p rest w b e : CStr}

theorem fgets_length (hn : 1 < n) (h : fgets n text = some (p, rest)) : rest.length < text.length := by
  unfold fgets at h
  cases text with
  | nil => cases h
  | cons c cs =>
    obtain ⟨m, rfl⟩ : ∃ m, n = m + 2 := ⟨n - 2, by omega⟩
    have hpos : 0 < (takeLine (m + 2 - 1) (c :: cs)).length := by
      have hm : m + 2 - 1 = m + 1 := by omega
      rw [hm, takeLine]
      split <;> simp
    simp only [List.isEmpty_cons, Bool.false_eq_true, if_false, Option.some_inj, Prod.mk.injEq] at h
    rw [← h.2, List.length_drop, List.length_cons]
    omega

/-- A line that fits is read with its newline, and of a longer one the front. -/
theorem takeLine_append (hw : '\n' ∉ w) (he : LineEnd e) (k : Nat) :
    takeLine k (w ++ e) = if w.length < k then w ++ e.take 1 else w.take k := by
  induction w generalizing k with
  | nil =>
    cases k with
    | zero => rfl
    | succ k =>
      obtain rfl | ⟨t, rfl⟩ := he
      · rfl
      · rfl
  | cons c w ih =>
    cases k with
    | zero => rfl
    | succ k =>
      have hc : c ≠ '\n' := fun hc => hw (hc ▸ List.mem_cons_self)
      rw [List.cons_append, takeLine, if_neg hc, ih fun hmem => hw (List.mem_cons_of_mem c hmem)]
      by_cases hlt : w.length < k
      · rw [if_pos hlt, if_pos (by simpa using hlt)]
        rfl
      · rw [if_neg hlt, if_neg (by simpa using hlt)]
        rfl

/-- What follows the text of a line when its front was read: nothing of it, or blanks. -/
def BlankBefore (rest e : CStr) : Prop := rest = e.tail ∨ ∃ b, BlankText b ∧ rest = b ++ e

/-- The front of a line that ends in blanks. -/
theorem fgets_front (hw : '\n' ∉ w) (hne : w ≠ []) (hlen : w.length ≤ n - 1) (hb : BlankText b)
    (he : LineEnd e) : ∃ x rest, fgets n (w ++ b ++ e) = some (w ++ x, rest) ∧
      (∀ c ∈ x, c ∈ b ∨ c = '\n') ∧ BlankBefore rest e := by
  have hwb : '\n' ∉ w ++ b := by
    rw [List.mem_append, not_or]
    exact ⟨hw, fun hmem => (hb _ hmem).2 rfl⟩
  have hline := takeLine_append hwb he (n - 1)
  have hempty : (w ++ b ++ e).isEmpty = false := by
    cases w with
    | nil => exact absurd rfl hne
    | cons c w => rfl
  have hlast : ∀ c ∈ e.take 1, c = '\n' := by
    obtain rfl | ⟨t, rfl⟩ := he
    · simp
    · simp
  unfold fgets
  rw [hempty, if_neg Bool.false_ne_true, hline]
  by_cases hlt : (w ++ b).length < n - 1
  · rw [if_pos hlt]
    refine ⟨b ++ e.take 1, e.tail, ?_, ?_, .inl rfl⟩
    · rw [Option.some_inj, Prod.mk.injEq, List.append_assoc]
      refine ⟨rfl, ?_⟩
      rw [List.append_assoc, ← List.append_assoc w b e, ← List.append_assoc w b, List.length_append,
        List.drop_append, List.drop_of_length_le (by omega), Nat.add_sub_cancel_left, List.nil_append]
      obtain rfl | ⟨t, rfl⟩ := he
      · rfl
      · rfl
    · intro c hc
      rw [List.mem_append] at hc
      exact hc.imp_right (hlast c)
  · rw [if_neg hlt]
    have htake : (w ++ b).take (n - 1) = w ++ b.take (n - 1 - w.length) := by
      rw [List.take_append, List.take_of_length_le hlen]
    have hlen' : ((w ++ b).take (n - 1)).length = n - 1 := by
      rw [List.length_take]
      omega
    refine ⟨b.take (n - 1 - w.length), b.drop (n - 1 - w.length) ++ e, ?_, ?_, .inr ⟨_, ?_, rfl⟩⟩
    · rw [hlen', Option.some_inj, Prod.mk.injEq, htake, List.append_assoc, List.drop_append,
        List.drop_of_length_le hlen, List.nil_append, List.drop_append_of_le_length]
      · exact ⟨rfl, rfl⟩
      · rw [List.length_append] at hlt
        omega
    · exact fun c hc => .inl (List.mem_of_mem_take hc)
    · exact fun c hc => hb c (List.mem_of_mem_drop hc)

/-- A function that reads a text by `fgets` into `n` characters and throws away what has `q`. -/
def Skips {β : Type} (f : CStr → β) (n : Nat) (q : CStr → Prop) : Prop :=
  ∀ text p rest, fgets n text = some (p, rest) → q p → f text = f rest

/-- A line of blanks is skipped, whatever its length. -/
theorem Skips.blank {β : Type} {f : CStr → β} {q : CStr → Prop} (hf : Skips f n q) (hn : 1 < n)
    (hq : ∀ p, (∀ c ∈ p, isBlank c = true) → q p) (hb : BlankText b) (he : LineEnd e) :
    f (b ++ e) = f e.tail := by
  have hnewline : isBlank '\n' = true := rfl
  induction hlen : b.length using Nat.strong_induction_on generalizing b with
  | _ len ih =>
    cases b with
    | nil =>
      obtain rfl | ⟨t, rfl⟩ := he
      · rfl
      · refine hf _ ['\n'] t ?_ (hq _ (by simpa using hnewline))
        obtain ⟨m, rfl⟩ : ∃ m, n = m + 2 := ⟨n - 2, by omega⟩
        rfl
    | cons c b =>
      obtain ⟨hc, hbs⟩ := List.forall_mem_cons.mp hb
      have hw : '\n' ∉ [c] := by
        rw [List.mem_singleton]
        exact fun h => hc.2 h.symm
      obtain ⟨x, rest, hget, hx, hrest⟩ :=
        fgets_front hw (List.cons_ne_nil c []) (Nat.le_sub_one_of_lt hn) hbs he
      have hall : ∀ d ∈ [c] ++ x, isBlank d = true := by
        intro d hd
        rw [List.mem_append, List.mem_singleton] at hd
        obtain rfl | hd := hd
        · exact hc.1
        · obtain hd | rfl := hx d hd
          · exact (hbs d hd).1
          · exact hnewline
      have hstep : f (c :: b ++ e) = f rest := hf _ _ _ hget (hq _ hall)
      rw [hstep]
      obtain rfl | ⟨b', hb', rfl⟩ := hrest
      · rfl
      · have hshort := fgets_length hn hget
        simp only [List.length_append, List.length_cons, List.length_nil] at hshort hlen
        exact ih b'.length (by omega) hb' rfl

/-- What is left of a line when only blanks are is skipped. -/
theorem Skips.remainder {β : Type} {f : CStr → β} {q : CStr → Prop} (hf : Skips f n q) (hn : 1 < n)
    (hq : ∀ p, (∀ c ∈ p, isBlank c = true) → q p) (he : LineEnd e) (h : BlankBefore rest e) :
    f rest = f e.tail := by
  obtain rfl | ⟨b, hb, rfl⟩ := h
  · rfl
  · exact hf.blank hn hq hb he

/-- A line is skipped whose front is thrown away, whatever blanks come with it. -/
theorem Skips.line {β : Type} {f : CStr → β} {q : CStr → Prop} (hf : Skips f n q) (hn : 1 < n)
    (hq : ∀ p, (∀ c ∈ p, isBlank c = true) → q p) (hw : '\n' ∉ w) (hne : w ≠ []) (hlen : w.length ≤ n - 1)
    (hfront : ∀ x, q (w ++ x)) (hb : BlankText b) (he : LineEnd e) : f (w ++ b ++ e) = f e.tail := by
  obtain ⟨x, rest, hget, -, hrest⟩ := fgets_front hw hne hlen hb he
  exact (hf _ _ _ hget (hfront x)).trans (hf.remainder hn hq he hrest)

end Rtfsc.Machine
