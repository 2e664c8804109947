import Rtfsc.Fio.IniReader

/-!
# fio: what a job file says

A job file is a list of lines, and its sections are what is left of it without blank lines, comments
and the white space around options. The parser makes of a file what its sections say, but that it takes
the white space in front of an option for a part of it, and such an option is refused.
-/

namespace Rtfsc.Fio

open Rtfsc.Machine

/-- A line of a job file. -/
inductive IniLine
  | blank (b : CStr)
  | comment (lead text : CStr)
  | option (lead body trail : CStr)
  | sectionName (name : CStr)

/-- What the line looks like without the white space behind it. -/
def IniLine.front : IniLine → CStr
  | .blank _ => []
  | .comment lead text => lead ++ ';' :: text
  | .option lead body _ => lead ++ body
  | .sectionName name => '[' :: name ++ [']']

/-- The white space behind it. -/
def IniLine.trail : IniLine → CStr
  | .blank b => b
  | .option _ _ trail => trail
  | .comment .. | .sectionName _ => []

/-- The text of an option begins and ends with something to see. -/
structure OptionBody (body : CStr) : Prop where
  nonempty : body ≠ []
  head : ∀ c, body.head? = some c → isBlank c = false ∧ c ≠ ';' ∧ c ≠ '['
  last : ∀ c, body.getLast? = some c → isBlank c = false
  oneLine : '\n' ∉ body

/-- White space within a line. -/
def SpaceText (lead : CStr) : Prop := ∀ c ∈ lead, isspace c = true ∧ c ≠ '\n'

/-- The parts of a line are what they are called. -/
def IniLine.Ok : IniLine → Prop
  | .blank b => BlankText b
  | .comment lead text => BlankText lead ∧ '\n' ∉ text
  | .option lead body trail => SpaceText lead ∧ OptionBody body ∧ BlankText trail
  | .sectionName name => '\n' ∉ name

/-- The reader does not cut the line, but in the white space behind it. -/
def IniLine.Fits : IniLine → Prop
  | .blank _ => True
  | .comment lead text => (lead ++ ';' :: text).length ≤ 4094
  | .option lead body _ => (lead ++ body).length ≤ 4094
  | .sectionName name => name.length ≤ 4092

/-- The text of a file. The last line may have no newline. -/
inductive Renders : List IniLine → CStr → Prop
  | nil : Renders [] []
  | last (l : IniLine) : Renders [l] (l.front ++ l.trail)
  | cons (l : IniLine) {ls : List IniLine} {text : CStr} :
      Renders ls text → Renders (l :: ls) (l.front ++ l.trail ++ '\n' :: text)

/-- The options up to the next section, each with the white space in front of it. -/
def ownLines : List IniLine → List (CStr × CStr)
  | [] => []
  | .sectionName _ :: _ => []
  | .option lead body _ :: ls => (lead, body) :: ownLines ls
  | _ :: ls => ownLines ls

/-- A section: its name and its own options. -/
structure Sect where
  name : CStr
  lines : List (CStr × CStr)

/-- The sections of a file. -/
def sectionsOf : List IniLine → List Sect
  | [] => []
  | .sectionName name :: ls => ⟨name, ownLines ls⟩ :: sectionsOf ls
  | _ :: ls => sectionsOf ls

/-- What `sscanf` takes of a name and the bracket behind it. -/
def scannedName (name : CStr) : CStr :=
  (((name ++ [']']).dropWhile isspace).takeWhile (!isspace ·)).take 255

def Sect.isGlobal (sec : Sect) : Bool := startsWith (scannedName sec.name) "global".toList

/-- The last character that was scanned is taken for the bracket. -/
def Sect.jobName (sec : Sect) : CStr := (scannedName sec.name).dropLast

/-- The options of a section, one after the other: whether one was refused, and the settings. `textOf`
is what of a line goes to `parse_option`. -/
def applyLines (env : IniEnv) (textOf : CStr × CStr → CStr) :
    List (CStr × CStr) → Bool → ParseState Word → Outcome (Bool × ParseState Word)
  | [], bad, s => .ok (bad, s)
  | l :: ls, bad, s =>
    match parseJobOption env (textOf l) s with
    | .error e => .error e
    | .ok (r, s) => applyLines env textOf ls (bad || r != 0) s

/-- What sections say: each job has the settings of `def_thread` behind the global sections above it,
and then its own options. -/
def runSections (env : IniEnv) (textOf : CStr × CStr → CStr) : List Sect → IniState → Outcome (List Done)
  | [], st => .ok st.done
  | sec :: secs, st =>
    match beginSection env sec.isGlobal st with
    | none => .ok (st.done ++ [.noSlot sec.jobName])
    | some td =>
      match applyLines env textOf sec.lines false ⟨td, st.erange⟩ with
      | .error e => .error e
      | .ok (bad, s) =>
        if bad then .ok (st.done ++ [.dropped sec.jobName])
        else
          let r := endSection env sec.isGlobal sec.jobName s st
          if r.1 = 0 then runSections env textOf secs r.2 else .ok r.2.done

/-- The file without blank lines, comments and the white space around options. -/
def plain : List IniLine → List IniLine
  | [] => []
  | .option _ body _ :: ls => .option [] body [] :: plain ls
  | .sectionName name :: ls => .sectionName name :: plain ls
  | _ :: ls => plain ls

variable {env : IniEnv} {ls : List IniLine} {l : IniLine} {text e : CStr} {st : IniState}

theorem Renders.uncons (h : Renders (l :: ls) text) :
    ∃ e, text = l.front ++ l.trail ++ e ∧ LineEnd e ∧ Renders ls e.tail := by
  cases h with
  | last => exact ⟨[], (List.append_nil _).symm, .inl rfl, .nil⟩
  | cons _ hls => exact ⟨_, rfl, .inr ⟨_, rfl⟩, hls⟩

/-! ## What the reader sees of a line -/

theorem isEmptyOrComment_blank {p : CStr} (h : ∀ c ∈ p, isBlank c = true) : isEmptyOrComment p = true := by
  induction p with
  | nil => rfl
  | cons c p ih =>
    obtain ⟨hc, hp⟩ := List.forall_mem_cons.mp h
    have hblank : (!isspace c && !iscntrl c) = false := by
      unfold isBlank at hc
      rw [← Bool.not_or, hc]
      rfl
    rw [isEmptyOrComment, hblank, ih hp]
    simp

theorem isEmptyOrComment_append {b p : CStr} (hb : ∀ c ∈ b, isBlank c = true) :
    isEmptyOrComment (b ++ p) = isEmptyOrComment p := by
  induction b with
  | nil => rfl
  | cons c b ih =>
    obtain ⟨hc, hbs⟩ := List.forall_mem_cons.mp hb
    have hsemi : c ≠ ';' := by
      rintro rfl
      exact absurd hc (by decide)
    have hblank : (!isspace c && !iscntrl c) = false := by
      unfold isBlank at hc
      rw [← Bool.not_or, hc]
      rfl
    rw [List.cons_append, isEmptyOrComment, if_neg hsemi, hblank, ih hbs]
    rfl

/-- Something to see at the front that is no comment. -/
theorem isEmptyOrComment_cons {c : Char} {p : CStr} (hc : isBlank c = false) (hsemi : c ≠ ';') :
    isEmptyOrComment (c :: p) = false := by
  have hblank : (!isspace c && !iscntrl c) = true := by
    unfold isBlank at hc
    rw [← Bool.not_or, hc]
    rfl
  rw [isEmptyOrComment, if_neg hsemi, hblank]
  rfl

theorem SpaceText.blank {lead : CStr} (h : SpaceText lead) : BlankText lead := by
  intro c hc
  refine ⟨?_, (h c hc).2⟩
  rw [isBlank, (h c hc).1]
  rfl

theorem isEmptyOrComment_option {lead body x : CStr} (hlead : SpaceText lead) (hbody : OptionBody body) :
    isEmptyOrComment (lead ++ body ++ x) = false := by
  rw [List.append_assoc, isEmptyOrComment_append fun c hc => (hlead.blank c hc).1]
  obtain ⟨c, cs, rfl⟩ := List.exists_cons_of_ne_nil hbody.nonempty
  obtain ⟨hc, hsemi, -⟩ := hbody.head c rfl
  exact isEmptyOrComment_cons hc hsemi

/-- An option does not look like a section, whatever is in front of it. -/
theorem head_option {lead body x : CStr} (hlead : SpaceText lead) (hbody : OptionBody body) :
    (lead ++ body ++ x).head? ≠ some '[' := by
  cases lead with
  | nil =>
    obtain ⟨c, cs, rfl⟩ := List.exists_cons_of_ne_nil hbody.nonempty
    intro h
    exact (hbody.head c rfl).2.2 (Option.some_inj.mp h)
  | cons c lead =>
    intro h
    have hc : c = '[' := Option.some_inj.mp h
    subst hc
    exact absurd (hlead '[' List.mem_cons_self).1 (by decide)

theorem sscanfSection_of_head {p : CStr} (h : p.head? ≠ some '[') : sscanfSection p = none := by
  unfold sscanfSection
  split
  · exact absurd rfl h
  · rfl

theorem stripBlankEnd_option {lead body x : CStr} (hbody : OptionBody body)
    (hx : ∀ c ∈ x, isBlank c = true) : stripBlankEnd (lead ++ body ++ x) = lead ++ body := by
  obtain ⟨init, c, hinit⟩ := (List.eq_nil_or_concat body).resolve_left hbody.nonempty
  rw [List.concat_eq_append] at hinit
  subst hinit
  have hc : (isspace c || iscntrl c) = false := hbody.last c (by simp)
  have hdrop : ∀ d ∈ x.reverse, (isspace d || iscntrl d) = true := fun d hd => hx d (List.mem_reverse.mp hd)
  have hrev : (lead ++ (init ++ [c])).reverse = c :: (lead ++ init).reverse := by simp
  unfold stripBlankEnd
  rw [List.reverse_append, List.dropWhile_append_of_pos hdrop, hrev,
    List.dropWhile_cons_of_neg (by rw [hc]; decide), ← hrev, List.reverse_reverse]

theorem takeWhile_append_newline {d x : CStr} (hx : ∀ c ∈ x, c = '\n') :
    (d ++ x).takeWhile (!isspace ·) = d.takeWhile (!isspace ·) := by
  have hnil : x.takeWhile (!isspace ·) = [] := by
    cases x with
    | nil => rfl
    | cons c x =>
      have hc := hx c List.mem_cons_self
      subst hc
      exact List.takeWhile_cons_of_neg (by decide)
  rw [List.takeWhile_append]
  split
  · next hlen =>
    rw [hnil, List.append_nil]
    exact (List.takeWhile_prefix _).eq_of_length hlen |>.symm
  · rfl

theorem dropWhile_bracket (name x : CStr) : ∃ d, (name ++ [']']).dropWhile isspace = d ∧
    (name ++ [']'] ++ x).dropWhile isspace = d ++ x ∧ ∃ c cs, d = c :: cs ∧ isspace c = false := by
  refine ⟨_, rfl, ?_⟩
  induction name with
  | nil => exact ⟨rfl, ']', [], rfl, rfl⟩
  | cons c name ih =>
    by_cases hc : isspace c = true
    · rw [List.cons_append, List.cons_append, List.dropWhile_cons_of_pos hc, List.dropWhile_cons_of_pos hc]
      exact ih
    · rw [List.cons_append, List.cons_append, List.dropWhile_cons_of_neg hc, List.dropWhile_cons_of_neg hc]
      exact ⟨rfl, c, _, rfl, by simpa using hc⟩

/-- The line of a section, with or without the newline. -/
theorem sscanfSection_name {name x : CStr} (hx : ∀ c ∈ x, c = '\n') :
    sscanfSection ('[' :: name ++ [']'] ++ x) = some (scannedName name) := by
  obtain ⟨d, hd, hdrop, c, cs, rfl, hc⟩ := dropWhile_bracket name x
  have hvisible : (!isspace c) = true := by rw [hc]; rfl
  have hsome : ((c :: cs).takeWhile (!isspace ·)).take 255 = c :: (cs.takeWhile (!isspace ·)).take 254 := by
    rw [List.takeWhile_cons, hvisible]
    rfl
  rw [List.cons_append, List.cons_append, sscanfSection, hdrop, takeWhile_append_newline hx, scannedName, hd,
    hsome]
  rfl

/-! ## The two loops -/

theorem IniLine.Ok.front_oneLine (h : l.Ok) : '\n' ∉ l.front := by
  cases l with
  | blank b => exact List.not_mem_nil
  | comment lead text =>
    unfold IniLine.front
    rw [List.mem_append, List.mem_cons, not_or, not_or]
    exact ⟨fun hmem => (h.1 _ hmem).2 rfl, by decide, h.2⟩
  | option lead body trail =>
    unfold IniLine.front
    rw [List.mem_append, not_or]
    exact ⟨fun hmem => (h.1 _ hmem).2 rfl, h.2.1.oneLine⟩
  | sectionName name =>
    unfold IniLine.front
    rw [List.mem_append, List.mem_cons, not_or, not_or]
    exact ⟨⟨by decide, h⟩, by decide⟩

theorem IniLine.Ok.trail_blank (h : l.Ok) : BlankText l.trail := by
  cases l with
  | blank b => exact h
  | option lead body trail => exact h.2.2
  | comment lead text => exact fun c hc => absurd hc List.not_mem_nil
  | sectionName name => exact fun c hc => absurd hc List.not_mem_nil

theorem IniLine.Fits.front_length (h : l.Fits) : l.front.length ≤ 4094 := by
  cases l with
  | blank b => exact Nat.zero_le _
  | comment lead text => exact h
  | option lead body trail => exact h
  | sectionName name =>
    have hlen : name.length ≤ 4092 := h
    unfold IniLine.front
    rw [List.length_append, List.length_cons, List.length_singleton]
    omega

theorem isEmptyOrComment_comment {lead text x : CStr} (h : BlankText lead) :
    isEmptyOrComment (lead ++ ';' :: text ++ x) = true := by
  rw [List.append_assoc, isEmptyOrComment_append fun c hc => (h c hc).1]
  rfl

theorem front_ne_nil {lead body : CStr} (h : OptionBody body) : lead ++ body ≠ [] :=
  List.append_ne_nil_of_right_ne_nil _ h.nonempty

/-- The outer loop goes over every line that is no section. -/
theorem parseJobsIni_line (hok : l.Ok) (hfits : l.Fits) (he : LineEnd e)
    (hl : ∀ name, l ≠ .sectionName name) :
    parseJobsIni env (l.front ++ l.trail ++ e) st = parseJobsIni env e.tail st := by
  have hskips := parseJobsIni_skips env st
  have hblank : ∀ p : CStr, (∀ c ∈ p, isBlank c = true) → isEmptyOrComment p ∨ sscanfSection p = none :=
    fun p hp => .inl (isEmptyOrComment_blank hp)
  cases l with
  | blank b => exact hskips.blank (by decide) hblank hok he
  | comment lead text =>
    refine hskips.line (by decide) hblank hok.front_oneLine ?_ hfits (fun x => .inl ?_) hok.trail_blank he
    · exact List.append_ne_nil_of_right_ne_nil _ (List.cons_ne_nil _ _)
    · exact isEmptyOrComment_comment hok.1
  | option lead body trail =>
    refine hskips.line (by decide) hblank hok.front_oneLine (front_ne_nil hok.2.1) hfits (fun x => .inr ?_)
      hok.trail_blank he
    exact sscanfSection_of_head (head_option hok.1 hok.2.1)
  | sectionName name => exact absurd rfl (hl name)

/-- All of a line goes to `parse_option` but the white space behind it. -/
def whole (l : CStr × CStr) : CStr := l.1 ++ l.2

/-- From here on the inner loop hands every option up to the next section to `parse_option`, once, and
the position it saves is as good as that of the section. -/
def ReadsOptions (env : IniEnv) (ls : List IniLine) (text off : CStr) (bad : Bool) (s : ParseState Word) :
    Prop :=
  match applyLines env whole (ownLines ls) bad s with
  | .error e => optionLines env text off bad s = .error e
  | .ok (bad', s') => ∃ off' ls' text', optionLines env text off bad s = .ok (off', bad', s') ∧
      ls' <:+ ls ∧ sectionsOf ls' = sectionsOf ls ∧ Renders ls' text' ∧
      ∀ st, parseJobsIni env off' st = parseJobsIni env text' st

variable {text' off off' : CStr} {bad bad' : Bool} {s s' : ParseState Word}

/-- One line more, of which the loop and the lines say the same. -/
theorem ReadsOptions.cons (h : ReadsOptions env ls text' off' bad' s')
    (happly : applyLines env whole (ownLines (l :: ls)) bad s = applyLines env whole (ownLines ls) bad' s')
    (hopt : optionLines env text off bad s = optionLines env text' off' bad' s')
    (hsections : sectionsOf (l :: ls) = sectionsOf ls) : ReadsOptions env (l :: ls) text off bad s := by
  unfold ReadsOptions at h ⊢
  rw [happly, hopt]
  split at h
  · exact h
  · obtain ⟨off', ls', text', hread, hsuffix, hsect, hrest⟩ := h
    exact ⟨off', ls', text', hread, hsuffix.trans (List.suffix_cons l ls), hsect.trans hsections.symm, hrest⟩

/-- The inner loop on the lines of a file. -/
theorem optionLines_spec (hr : Renders ls text) (hok : ∀ l ∈ ls, l.Ok) (hfits : ∀ l ∈ ls, l.Fits)
    (hoff : ∀ st, parseJobsIni env off st = parseJobsIni env text st) :
    ReadsOptions env ls text off bad s := by
  induction ls generalizing text off bad s with
  | nil =>
    cases hr
    exact ⟨off, [], [], optionLines_end rfl, List.suffix_refl _, rfl, .nil, hoff⟩
  | cons l ls ih =>
    obtain ⟨e, rfl, he, hls⟩ := hr.uncons
    have hl := hok l List.mem_cons_self
    have hlfits := hfits l List.mem_cons_self
    have hlen := hlfits.front_length
    have hoks : ∀ l ∈ ls, l.Ok := fun l hmem => hok l (List.mem_cons_of_mem _ hmem)
    have hfitss : ∀ l ∈ ls, l.Fits := fun l hmem => hfits l (List.mem_cons_of_mem _ hmem)
    have hblank : ∀ p : CStr, (∀ c ∈ p, isBlank c = true) → isEmptyOrComment p = true :=
      fun p => isEmptyOrComment_blank
    have hskips := optionLines_skips env off bad s
    have houter : (∀ name, l ≠ .sectionName name) → ∀ st,
        parseJobsIni env off st = parseJobsIni env e.tail st := fun hname st => by
      rw [hoff, parseJobsIni_line hl hlfits he hname]
    cases l with
    | blank b =>
      have hrest : ReadsOptions env ls e.tail off bad s :=
        ih hls hoks hfitss (houter fun _ => IniLine.noConfusion)
      exact hrest.cons rfl (hskips.blank (by decide) hblank hl he) rfl
    | comment lead text =>
      have hrest : ReadsOptions env ls e.tail off bad s :=
        ih hls hoks hfitss (houter fun _ => IniLine.noConfusion)
      refine hrest.cons rfl (hskips.line (by decide) hblank hl.front_oneLine ?_ (by omega)
        (fun x => isEmptyOrComment_comment hl.1) hl.trail_blank he) rfl
      exact List.append_ne_nil_of_right_ne_nil _ (List.cons_ne_nil _ _)
    | option lead body trail =>
      obtain ⟨hlead, hbody, htrail⟩ := hl
      obtain ⟨x, rest, hget, hx, hbefore⟩ := fgets_front (n := 4096) (hok _ List.mem_cons_self).front_oneLine
        (front_ne_nil hbody) (by omega) htrail he
      have hxblank : ∀ c ∈ x, isBlank c = true := by
        intro c hc
        obtain hc | rfl := hx c hc
        · exact (htrail c hc).1
        · rfl
      have hget' : fgets 4096 (lead ++ body ++ trail ++ e) = some (lead ++ body ++ x, rest) := hget
      have hopt := optionLines_eq env off bad s hget'
      have hfront : stripBlankFront (lead ++ body ++ x) = lead ++ body ++ x := rfl
      rw [isEmptyOrComment_option hlead hbody, if_neg Bool.false_ne_true, hfront,
        if_neg (head_option hlead hbody), stripBlankEnd_option hbody hxblank] at hopt
      cases hparse : parseJobOption env (lead ++ body) s with
      | error f =>
        rw [hparse] at hopt
        have happly : applyLines env whole (ownLines (.option lead body trail :: ls)) bad s = .error f := by
          rw [ownLines, applyLines, whole, hparse]
        unfold ReadsOptions
        rw [happly]
        exact hopt
      | ok r =>
        obtain ⟨r, s1⟩ := r
        rw [hparse] at hopt
        have happly : applyLines env whole (ownLines (.option lead body trail :: ls)) bad s =
            applyLines env whole (ownLines ls) (bad || r != 0) s1 := by
          rw [ownLines, applyLines, whole, hparse]
        -- what is left of this line is blank for both loops
        have hinner : optionLines env rest rest (bad || r != 0) s1 =
            optionLines env e.tail rest (bad || r != 0) s1 :=
          (optionLines_skips env rest _ s1).remainder (by decide) hblank he hbefore
        have hsaved : ∀ st, parseJobsIni env rest st = parseJobsIni env e.tail st := fun st =>
          (parseJobsIni_skips env st).remainder (by decide) (fun p hp => .inl (hblank p hp)) he hbefore
        exact (ih hls hoks hfitss hsaved).cons happly (hopt.trans hinner) rfl
    | sectionName name =>
      obtain ⟨x, rest, hget, -, -⟩ := fgets_front (n := 4096) hl.front_oneLine
        (List.append_ne_nil_of_right_ne_nil _ (List.cons_ne_nil _ _)) (by omega) hl.trail_blank he
      refine ⟨off, .sectionName name :: ls, _, ?_, List.suffix_refl _, rfl, hr, hoff⟩
      rw [optionLines_eq env off bad s hget]
      rfl

/-- The sections of a file, as the parser takes them. -/
theorem parseJobsIni_eq (hr : Renders ls text) (hok : ∀ l ∈ ls, l.Ok) (hfits : ∀ l ∈ ls, l.Fits) :
    parseJobsIni env text st = runSections env whole (sectionsOf ls) st := by
  induction hlen : ls.length using Nat.strong_induction_on generalizing ls text st with
  | _ len ih =>
    cases ls with
    | nil =>
      cases hr
      exact parseJobsIni_end rfl
    | cons l ls =>
      obtain ⟨e, rfl, he, hls⟩ := hr.uncons
      have hl := hok l List.mem_cons_self
      have hlfits := hfits l List.mem_cons_self
      have hoks : ∀ l ∈ ls, l.Ok := fun l hmem => hok l (List.mem_cons_of_mem _ hmem)
      have hfitss : ∀ l ∈ ls, l.Fits := fun l hmem => hfits l (List.mem_cons_of_mem _ hmem)
      rw [List.length_cons] at hlen
      have hskipped : (∀ name, l ≠ .sectionName name) → sectionsOf (l :: ls) = sectionsOf ls →
          parseJobsIni env (l.front ++ l.trail ++ e) st = runSections env whole (sectionsOf (l :: ls)) st := by
        intro hname hsections
        rw [parseJobsIni_line hl hlfits he hname, hsections]
        exact ih ls.length (by omega) hls hoks hfitss rfl
      cases l with
      | blank b => exact hskipped (fun _ => IniLine.noConfusion) rfl
      | comment lead text => exact hskipped (fun _ => IniLine.noConfusion) rfl
      | option lead body trail => exact hskipped (fun _ => IniLine.noConfusion) rfl
      | sectionName name =>
        obtain ⟨x, rest, hget, hx, hbefore⟩ := fgets_front (n := 4095) hl.front_oneLine
          (List.append_ne_nil_of_right_ne_nil _ (List.cons_ne_nil _ _)) hlfits.front_length hl.trail_blank he
        have hnewline : ∀ c ∈ x, c = '\n' := fun c hc => (hx c hc).resolve_left List.not_mem_nil
        have hvisible : isEmptyOrComment ((IniLine.sectionName name).front ++ x) = false :=
          isEmptyOrComment_cons rfl (by decide)
        have hblank : ∀ p : CStr, (∀ c ∈ p, isBlank c = true) → isEmptyOrComment p = true :=
          fun p => isEmptyOrComment_blank
        have hsaved : ∀ st, parseJobsIni env rest st = parseJobsIni env e.tail st := fun st =>
          (parseJobsIni_skips env st).remainder (by decide) (fun p hp => .inl (hblank p hp)) he hbefore
        have hglobal : Sect.isGlobal ⟨name, ownLines ls⟩ = startsWith (scannedName name) "global".toList := rfl
        have hjob : Sect.jobName ⟨name, ownLines ls⟩ = (scannedName name).dropLast := rfl
        rw [parseJobsIni_section hget hvisible (sscanfSection_name hnewline), sectionsOf, runSections, hglobal,
          hjob]
        cases beginSection env (startsWith (scannedName name) "global".toList) st with
        | none => rfl
        | some td =>
          have hread : ReadsOptions env ls e.tail rest false ⟨td, st.erange⟩ :=
            optionLines_spec hls hoks hfitss hsaved
          have hinner : optionLines env rest rest false ⟨td, st.erange⟩ =
              optionLines env e.tail rest false ⟨td, st.erange⟩ :=
            (optionLines_skips env rest false _).remainder (by decide) hblank he hbefore
          unfold ReadsOptions at hread
          dsimp only
          rw [hinner]
          cases happly : applyLines env whole (ownLines ls) false ⟨td, st.erange⟩ with
          | error e =>
            rw [happly] at hread
            rw [hread]
          | ok r =>
            obtain ⟨bad, s⟩ := r
            rw [happly] at hread
            obtain ⟨off', ls', text', hopt, hsuffix, hsect, hrend, hsame⟩ := hread
            rw [hopt]
            dsimp only
            have hlen' := hsuffix.length_le
            rw [hsame, ih ls'.length (by omega) hrend (fun l hmem => hoks l (hsuffix.subset hmem))
              (fun l hmem => hfitss l (hsuffix.subset hmem)) rfl, hsect]

/-! ## White space in front of an option -/

/-- What of a line should go to `parse_option`. -/
def own (l : CStr × CStr) : CStr := l.2

/-- An option with white space in front of it. -/
structure Indented (l : CStr × CStr) : Prop where
  space : SpaceText l.1
  nonempty : l.1 ≠ []

theorem handleOption_none_total (o : FioOption Word Callback) (call : Callback → CbArg → Vars Word → Int × Vars Word)
    (s : ParseState Word) : ∃ r, handleOption nextWord call o none s = .ok r := by
  unfold handleOption
  rw [Option.bind_none]
  unfold handleOptionPart
  cases o.type with
  | strSet =>
    dsimp only
    cases o.cb <;> exact ⟨_, rfl⟩
  | _ => exact ⟨_, rfl⟩

/-- `parse_option` has a value for every text that fits into its buffer. -/
theorem parseJobOption_fits {p : CStr} (h : p.length < 63) : ∃ r, parseJobOption env p s = .ok r := by
  unfold parseJobOption parseOption strncpy
  rw [if_pos h, ok_bind]
  rcases strchr_cases p '=' with ⟨hnone, -⟩ | ⟨pre, post, hsome, hp, -⟩
  · rw [hnone]
    dsimp only
    cases findOption options p with
    | none => exact ⟨_, rfl⟩
    | some o =>
      obtain ⟨⟨r, s'⟩, hr⟩ := handleOption_none_total o (Callback.call env.loadIoengine) s
      dsimp only
      rw [hr]
      exact ⟨_, rfl⟩
  · rw [hsome]
    dsimp only
    cases hfind : findOption options pre with
    | none => exact ⟨_, rfl⟩
    | some o =>
      have hpost : post.length < 127 := by
        rw [hp, List.length_append, List.length_cons] at h
        omega
      have hwf := options_wellFormed o (List.mem_of_find?_eq_some hfind)
      obtain ⟨⟨r, s'⟩, hr⟩ := handleOption_total nextWord (Callback.call env.loadIoengine) hwf.called hpost s
      dsimp only
      rw [hr]
      exact ⟨_, rfl⟩

theorem parseJobOption_long {p : CStr} (h : ¬p.length < 63) :
    parseJobOption env p s = .error .unterminated := by
  unfold parseJobOption parseOption strncpy
  rw [if_neg h]
  rfl

theorem options_names : ∀ o ∈ options, o.name.head?.any isspace = false := by decide +kernel

/-- No option has a name that begins with white space. -/
theorem findOption_space {c : Char} {pre : CStr} (hc : isspace c = true) :
    findOption options (c :: pre) = none := by
  unfold findOption
  rw [List.find?_eq_none]
  intro o ho heq
  have hname : o.name = c :: pre := by simpa using heq
  have hspace := options_names o ho
  rw [hname, List.head?_cons, Option.any_some, hc] at hspace
  cases hspace

/-- An option with white space in front of it is refused. -/
theorem parseJobOption_space {c : Char} {p : CStr} (hc : isspace c = true) (h : (c :: p).length < 63) :
    parseJobOption env (c :: p) s = .ok (1, s) := by
  have hne : c ≠ '=' := by
    rintro rfl
    exact absurd hc (by decide)
  unfold parseJobOption parseOption strncpy
  rw [if_pos h, ok_bind]
  rcases strchr_cases (c :: p) '=' with ⟨hnone, -⟩ | ⟨pre, post, hsome, hp, -⟩
  · rw [hnone]
    dsimp only
    rw [findOption_space hc]
    rfl
  · rw [hsome]
    obtain ⟨pre', rfl⟩ : ∃ pre', pre = c :: pre' := by
      cases pre with
      | nil => exact absurd (List.cons.inj hp).1 hne
      | cons d pre' => exact ⟨pre', by rw [(List.cons.inj hp).1]⟩
    dsimp only
    rw [findOption_space hc]
    rfl

theorem Indented.refused {l : CStr × CStr} (hl : Indented l) (h : (whole l).length < 63) :
    parseJobOption env (whole l) s = .ok (1, s) := by
  obtain ⟨c, lead, hcons⟩ := List.exists_cons_of_ne_nil hl.nonempty
  have hc : isspace c = true := (hl.space c (hcons ▸ List.mem_cons_self)).1
  have hwhole : whole l = c :: (lead ++ l.2) := by
    rw [whole, hcons]
    rfl
  rw [hwhole] at h ⊢
  exact parseJobOption_space hc h

variable {lines : List (CStr × CStr)} {textOf : CStr × CStr → CStr}

/-- A section has no value exactly when an option of it does not fit into the buffer. -/
theorem applyLines_error_iff {f : Fault} :
    applyLines env textOf lines bad s = .error f ↔
      f = .unterminated ∧ ∃ l ∈ lines, ¬(textOf l).length < 63 := by
  induction lines generalizing bad s with
  | nil =>
    refine iff_of_false (fun h => ?_) ?_
    · cases h
    · rintro ⟨-, l, hl, -⟩
      exact List.not_mem_nil hl
  | cons l lines ih =>
    rw [applyLines]
    by_cases hl : (textOf l).length < 63
    · obtain ⟨⟨r, s1⟩, hr⟩ : ∃ r, parseJobOption env (textOf l) s = .ok r := parseJobOption_fits hl
      rw [hr]
      dsimp only
      rw [ih]
      simp [hl]
    · rw [parseJobOption_long hl]
      constructor
      · rintro ⟨⟩
        exact ⟨rfl, l, List.mem_cons_self, hl⟩
      · rintro ⟨rfl, -⟩
        rfl

theorem applyLines_ok {lines : List (CStr × CStr)} (h : ∀ l ∈ lines, (textOf l).length < 63) :
    ∃ bad' s', applyLines env textOf lines bad s = .ok (bad', s') := by
  cases hres : applyLines env textOf lines bad s with
  | ok r => exact ⟨r.1, r.2, rfl⟩
  | error f =>
    obtain ⟨-, l, hl, hlong⟩ := applyLines_error_iff.mp hres
    exact absurd (h l hl) hlong

theorem applyLines_bad (h : applyLines env textOf lines true s = .ok (bad', s')) : bad' = true := by
  induction lines generalizing s with
  | nil =>
    cases h
    rfl
  | cons l lines ih =>
    rw [applyLines] at h
    split at h
    · cases h
    · exact ih h

/-- A section with white space in front of one of its options is refused. -/
theorem applyLines_space (hlines : ∀ l ∈ lines, SpaceText l.1) (hl : ∃ l ∈ lines, l.1 ≠ [])
    (h : applyLines env whole lines bad s = .ok (bad', s')) : bad' = true := by
  induction lines generalizing bad s with
  | nil =>
    obtain ⟨l, hmem, -⟩ := hl
    exact absurd hmem List.not_mem_nil
  | cons l lines ih =>
    obtain ⟨hspace, hrest⟩ := List.forall_mem_cons.mp hlines
    rw [applyLines] at h
    by_cases hlead : l.1 = []
    · split at h
      · cases h
      · refine ih hrest ?_ h
        obtain ⟨l', hmem, hne⟩ := hl
        rw [List.mem_cons] at hmem
        obtain rfl | hmem := hmem
        · exact absurd hlead hne
        · exact ⟨l', hmem, hne⟩
    · have hindented : Indented l := ⟨hspace, hlead⟩
      split at h
      · cases h
      · next r s1 hparse =>
        have hfits : (whole l).length < 63 := by
          by_contra hlong
          rw [parseJobOption_long hlong] at hparse
          cases hparse
        rw [hindented.refused hfits] at hparse
        cases hparse
        rw [show (bad || (1 : Int) != 0) = true by simp] at h
        exact applyLines_bad h

theorem applyLines_noSpace (h : ∀ l ∈ lines, l.1 = []) :
    applyLines env whole lines bad s = applyLines env own lines bad s := by
  induction lines generalizing bad s with
  | nil => rfl
  | cons l lines ih =>
    obtain ⟨hl, hrest⟩ := List.forall_mem_cons.mp h
    have hwhole : whole l = own l := by rw [whole, hl, List.nil_append, own]
    rw [applyLines, applyLines, hwhole]
    cases parseJobOption env (own l) s with
    | error f => rfl
    | ok r => exact ih hrest

/-! ## The jobs of a file -/

/-- Every section that is reached has options that fit into the buffer of `parse_option`, with the white
space in front of them, and one with white space in front of an option is refused for another one. -/
def Harmless (env : IniEnv) : List Sect → IniState → Prop
  | [], _ => True
  | sec :: secs, st =>
    match beginSection env sec.isGlobal st with
    | none => True
    | some td =>
      match applyLines env own sec.lines false ⟨td, st.erange⟩ with
      | .error _ => False
      | .ok (bad, s) =>
        if bad then ∀ l ∈ sec.lines, (whole l).length < 63
        else
          let r := endSection env sec.isGlobal sec.jobName s st
          (∀ l ∈ sec.lines, l.1 = []) ∧ (r.1 = 0 → Harmless env secs r.2)

variable {sec : Sect} {secs : List Sect} {ds : List Done}

/-- A section that was not refused leaves one entry, and not that of a job that was dropped. -/
theorem endSection_done (env : IniEnv) (isGlobal : Bool) (name : CStr) (s : ParseState Word) (st : IniState) :
    ∃ d, (endSection env isGlobal name s st).2.done = st.done ++ [d] ∧ ∀ name', d ≠ .dropped name' := by
  unfold endSection
  split
  · exact ⟨_, rfl, fun _ => Done.noConfusion⟩
  · exact ⟨_, rfl, fun _ => Done.noConfusion⟩

theorem runSections_prefix_done (h : runSections env textOf secs st = .ok ds) : st.done <+: ds := by
  induction secs generalizing st with
  | nil =>
    cases h
    exact List.prefix_refl _
  | cons sec secs ih =>
    rw [runSections] at h
    split at h
    · cases h
      exact List.prefix_append _ _
    · split at h
      · cases h
      · next bad s _ =>
        obtain ⟨d, hd, -⟩ := endSection_done env sec.isGlobal sec.jobName s st
        have hstep : st.done <+: (endSection env sec.isGlobal sec.jobName s st).2.done := by
          rw [hd]
          exact List.prefix_append _ _
        split at h
        · cases h
          exact List.prefix_append _ _
        · dsimp only at h
          split at h
          · exact hstep.trans (ih h)
          · cases h
            exact hstep

/-- The entry of a section that was not refused stays in its place. -/
theorem runSections_ne_dropped {isGlobal : Bool} {name name' : CStr}
    (h : (let r := endSection env isGlobal name s st
      if r.1 = 0 then runSections env textOf secs r.2 else .ok r.2.done) = .ok ds) :
    ds ≠ st.done ++ [.dropped name'] := by
  obtain ⟨d, hd, hne⟩ := endSection_done env isGlobal name s st
  have hprefix : st.done ++ [d] <+: ds := by
    dsimp only at h
    split at h
    · exact hd ▸ runSections_prefix_done h
    · cases h
      exact hd ▸ List.prefix_refl _
  rintro rfl
  have heq := hprefix.eq_of_length (by simp)
  exact hne name' (List.singleton_inj.mp (List.append_cancel_left heq))

/-- The parser makes of sections what they say exactly when they are harmless. -/
theorem runSections_whole_iff (hspace : ∀ sec ∈ secs, ∀ l ∈ sec.lines, SpaceText l.1) :
    (∃ ds, runSections env whole secs st = .ok ds ∧ runSections env own secs st = .ok ds) ↔
      Harmless env secs st := by
  induction secs generalizing st with
  | nil => exact iff_of_true ⟨st.done, rfl, rfl⟩ trivial
  | cons sec secs ih =>
    obtain ⟨hsec, hsecs⟩ := List.forall_mem_cons.mp hspace
    rw [runSections, runSections, Harmless]
    cases hnew : beginSection env sec.isGlobal st with
    | none => exact iff_of_true ⟨_, rfl, rfl⟩ trivial
    | some td =>
      dsimp only
      cases hown : applyLines env own sec.lines false ⟨td, st.erange⟩ with
      | error f =>
        refine iff_of_false ?_ id
        rintro ⟨ds, -, h⟩
        cases h
      | ok r =>
        obtain ⟨bad, s⟩ := r
        cases bad with
        | true =>
          dsimp only
          rw [if_pos rfl, if_pos rfl]
          constructor
          · rintro ⟨ds, hwhole, -⟩ l hl
            by_contra hlong
            rw [applyLines_error_iff.mpr ⟨rfl, l, hl, hlong⟩] at hwhole
            cases hwhole
          · intro hfits
            obtain ⟨bad', s', hwhole⟩ : ∃ bad' s',
                applyLines env whole sec.lines false ⟨td, st.erange⟩ = .ok (bad', s') := applyLines_ok hfits
            have hbad : bad' = true := by
              by_cases hlead : ∀ l ∈ sec.lines, l.1 = []
              · rw [applyLines_noSpace hlead, hown] at hwhole
                cases hwhole
                rfl
              · push Not at hlead
                exact applyLines_space hsec hlead hwhole
            rw [hwhole, hbad]
            exact ⟨_, rfl, rfl⟩
        | false =>
          dsimp only
          rw [if_neg Bool.false_ne_true, if_neg Bool.false_ne_true]
          by_cases hlead : ∀ l ∈ sec.lines, l.1 = []
          · rw [applyLines_noSpace hlead, hown]
            dsimp only
            rw [if_neg Bool.false_ne_true]
            by_cases hret : (endSection env sec.isGlobal sec.jobName s st).1 = 0
            · rw [if_pos hret, if_pos hret, ih hsecs]
              exact ⟨fun h => ⟨hlead, fun _ => h⟩, fun h => h.2 hret⟩
            · rw [if_neg hret, if_neg hret]
              exact iff_of_true ⟨_, rfl, rfl⟩ ⟨hlead, fun h => absurd h hret⟩
          · refine iff_of_false ?_ fun h => hlead h.1
            rintro ⟨ds, hwhole, hrun⟩
            push Not at hlead
            cases hres : applyLines env whole sec.lines false ⟨td, st.erange⟩ with
            | error f =>
              rw [hres] at hwhole
              cases hwhole
            | ok r =>
              obtain ⟨bad', s'⟩ := r
              have hbad := applyLines_space hsec hlead hres
              subst hbad
              rw [hres] at hwhole
              cases hwhole
              exact runSections_ne_dropped hrun rfl

theorem ownLines_space (hok : ∀ l ∈ ls, l.Ok) : ∀ l ∈ ownLines ls, SpaceText l.1 := by
  induction ls with
  | nil => exact fun l hl => absurd hl List.not_mem_nil
  | cons l ls ih =>
    obtain ⟨hl, hls⟩ := List.forall_mem_cons.mp hok
    cases l with
    | blank b => exact ih hls
    | comment lead text => exact ih hls
    | option lead body trail => exact List.forall_mem_cons.mpr ⟨hl.1, ih hls⟩
    | sectionName name => exact fun l hl => absurd hl List.not_mem_nil

theorem sectionsOf_space (hok : ∀ l ∈ ls, l.Ok) :
    ∀ sec ∈ sectionsOf ls, ∀ l ∈ sec.lines, SpaceText l.1 := by
  induction ls with
  | nil => exact fun sec hsec => absurd hsec List.not_mem_nil
  | cons l ls ih =>
    obtain ⟨hl, hls⟩ := List.forall_mem_cons.mp hok
    cases l with
    | blank b => exact ih hls
    | comment lead text => exact ih hls
    | option lead body trail => exact ih hls
    | sectionName name => exact List.forall_mem_cons.mpr ⟨ownLines_space hls, ih hls⟩

/-! ### The plain file -/

theorem ownLines_plain (ls : List IniLine) : ownLines (plain ls) = (ownLines ls).map fun l => ([], l.2) := by
  induction ls with
  | nil => rfl
  | cons l ls ih =>
    cases l with
    | blank b => exact ih
    | comment lead text => exact ih
    | option lead body trail => exact congrArg (List.cons ([], body)) ih
    | sectionName name => rfl

theorem applyLines_plain (lines : List (CStr × CStr)) :
    applyLines env whole (lines.map fun l => ([], l.2)) bad s = applyLines env own lines bad s := by
  induction lines generalizing bad s with
  | nil => rfl
  | cons l lines ih =>
    have hwhole : whole ([], l.2) = own l := rfl
    rw [List.map_cons, applyLines, applyLines, hwhole]
    cases parseJobOption env (own l) s with
    | error f => rfl
    | ok r => exact ih

theorem runSections_plain (ls : List IniLine) :
    runSections env whole (sectionsOf (plain ls)) st = runSections env own (sectionsOf ls) st := by
  induction ls generalizing st with
  | nil => rfl
  | cons l ls ih =>
    cases l with
    | blank b => exact ih
    | comment lead text => exact ih
    | option lead body trail => exact ih
    | sectionName name =>
      rw [plain, sectionsOf, sectionsOf, runSections, runSections, ownLines_plain]
      have hglobal : Sect.isGlobal ⟨name, (ownLines ls).map fun l => ([], l.2)⟩ =
          Sect.isGlobal ⟨name, ownLines ls⟩ := rfl
      have hjob : Sect.jobName ⟨name, (ownLines ls).map fun l => ([], l.2)⟩ =
          Sect.jobName ⟨name, ownLines ls⟩ := rfl
      rw [hglobal, hjob]
      dsimp only
      cases beginSection env (Sect.isGlobal ⟨name, ownLines ls⟩) st with
      | none => rfl
      | some td =>
        dsimp only
        rw [applyLines_plain]
        cases applyLines env own (ownLines ls) false ⟨td, st.erange⟩ with
        | error f => rfl
        | ok r =>
          dsimp only
          rw [ih]

theorem plain_ok_fits (hok : ∀ l ∈ ls, l.Ok) (hfits : ∀ l ∈ ls, l.Fits) :
    ∀ l ∈ plain ls, l.Ok ∧ l.Fits := by
  induction ls with
  | nil => exact fun l hl => absurd hl List.not_mem_nil
  | cons l ls ih =>
    obtain ⟨hl, hls⟩ := List.forall_mem_cons.mp hok
    obtain ⟨hf, hfs⟩ := List.forall_mem_cons.mp hfits
    have hrest := ih hls hfs
    cases l with
    | blank b => exact hrest
    | comment lead text => exact hrest
    | option lead body trail =>
      refine List.forall_mem_cons.mpr ⟨⟨⟨fun c hc => ?_, hl.2.1, fun c hc => ?_⟩, ?_⟩, hrest⟩
      · exact absurd hc List.not_mem_nil
      · exact absurd hc List.not_mem_nil
      · have hlen : (lead ++ body).length ≤ 4094 := hf
        rw [List.length_append] at hlen
        exact (Nat.le_add_left _ _).trans hlen
    | sectionName name => exact List.forall_mem_cons.mpr ⟨⟨hl, hf⟩, hrest⟩

/-- No engine can be loaded, and every job is added. -/
def addsAll : IniEnv := ⟨fun _ => none, fun _ => true, fun _ _ _ => 0, fun _ erange => erange⟩

/-- Before the first section, with everything at zero. -/
def iniStart : IniState := ⟨fun _ => .word 0, false, 0, []⟩

/-- A job `a` that reads, its option behind some white space. -/
def smallFile (lead : CStr) : List IniLine := [.sectionName ['a'], .option lead "rw=read".toList []]

def smallFileText (lead : CStr) : CStr := "[a]\n".toList ++ lead ++ "rw=read\n".toList

theorem renders_smallFile (lead : CStr) : Renders (smallFile lead) (smallFileText lead) := by
  have hoption := Renders.cons (.option lead "rw=read".toList []) Renders.nil
  have htext : smallFileText lead = (IniLine.sectionName ['a']).front ++ (IniLine.sectionName ['a']).trail ++
      '\n' :: ((IniLine.option lead "rw=read".toList []).front ++
        (IniLine.option lead "rw=read".toList []).trail ++ ['\n']) := by
    simp [smallFileText, IniLine.front, IniLine.trail]
  rw [htext]
  exact Renders.cons _ hoption

theorem smallFile_ok {lead : CStr} (h : SpaceText lead) : ∀ l ∈ smallFile lead, l.Ok := by
  refine List.forall_mem_cons.mpr ⟨?_, List.forall_mem_singleton.mpr ⟨h, ⟨?_, ?_, ?_, ?_⟩, ?_⟩⟩
  · exact (by decide : '\n' ∉ ['a'])
  · decide
  · rintro c ⟨⟩
    decide
  · rintro c ⟨⟩
    decide
  · decide
  · exact fun c hc => absurd hc List.not_mem_nil

theorem smallFile_fits {lead : CStr} (h : lead.length ≤ 4000) : ∀ l ∈ smallFile lead, l.Fits := by
  have hname : ['a'].length ≤ 4092 := by decide
  have hoption : (lead ++ "rw=read".toList).length ≤ 4094 := by
    have hlen : "rw=read".toList.length = 7 := rfl
    rw [List.length_append, hlen]
    omega
  exact List.forall_mem_cons.mpr ⟨hname, List.forall_mem_singleton.mpr hoption⟩

end Rtfsc.Fio
