import Rtfsc.Fio.RandomMap
import Rtfsc.Machine.Run

/-!
# fio: what `get_io_u` hands out

One lemma says what a call of `get_io_u` does to the file and which unit it hands out, one says why
a call has no value. A run of calls on one file is a run of `GetCall`, in which the rest of the job
is free to change between two calls. The transfers of such a run lie in the file.
-/

namespace Rtfsc.Fio

open Rtfsc.Machine

/-- What the generator has decided about a transfer in direction `d` before it looks at the end of
the file: a block, and a length. -/
structure Chosen (td : ThreadData) (f : FioFile) (env : GetEnv) (d : DataDdir) (u : IoU) : Prop where
  turn : (getRwDdir td env.elapsed env.rwmix).1 = d
  ddir : u.ddir = .data d
  block : ∃ b, nextBlock td.opts f env.random d = .ok (some b) ∧
    u.offset = b * (td.opts.minBs.get d).toUInt64 + f.fileOffset
  inside : u.offset ≤ f.realFileSize
  drawn : u.buflen = getNextBuflen td env.bsrange d
  nonempty : u.buflen ≠ 0

/-- A transfer the generator has issued: chosen, cut at the end of the file and, when the job has a
map, marked. -/
def Issued (td : ThreadData) (f : FioFile) (env : GetEnv) (d : DataDdir) (u : IoU) (f' : FioFile) :
    Prop :=
  ∃ u₀ f₁, Chosen td f env d u₀ ∧
    (clipToFile td.opts f u₀).1 = true ∧ (clipToFile td.opts f u₀).2.buflen ≠ 0 ∧
    markIoU td f (clipToFile td.opts f u₀).2 d = .ok (f₁, u) ∧
    f' = { f₁ with lastPos := f₁.lastPos + u.buflen.toUInt64 }

/-- The part of a job that the generator reads and the bookkeeping around it leaves alone. -/
structure SameJob (td td' : ThreadData) : Prop where
  opts : td'.opts = td.opts
  readIolog : td'.readIolog = td.readIolog
  ioSize : td'.ioSize = td.ioSize
  thisIoBytes : td'.thisIoBytes = td.thisIoBytes
  rwmixDdir : td'.rwmixDdir = td.rwmixDdir

theorem SameJob.trans {td td₁ td' : ThreadData} (h : SameJob td td₁) (h' : SameJob td₁ td') :
    SameJob td td' :=
  ⟨h'.1.trans h.1, h'.2.trans h.2, h'.3.trans h.3, h'.4.trans h.4, h'.5.trans h.5⟩

theorem SameJob.turn {td td' : ThreadData} (h : SameJob td td') (elapsed : UInt64) (r : RandLong) :
    (getRwDdir td' elapsed r).1 = (getRwDdir td elapsed r).1 := by
  unfold getRwDdir
  rw [h.opts, h.rwmixDdir]
  split
  · split <;> rfl
  · split <;> rfl

theorem SameJob.markIoU {td td' : ThreadData} (h : SameJob td td') : markIoU td' = markIoU td := by
  funext f u d
  rw [Fio.markIoU, Fio.markIoU, usesMap, usesMap, h.opts, h.readIolog]

theorem SameJob.chosen {td td' : ThreadData} {f : FioFile} {env : GetEnv} {d : DataDdir} {u : IoU}
    (h : SameJob td td') (hu : Chosen td' f env d u) : Chosen td f env d u := by
  have hlen : getNextBuflen td' = getNextBuflen td := by
    funext r d
    simp only [getNextBuflen, h.opts, h.ioSize, h.thisIoBytes]
  exact ⟨h.turn _ _ ▸ hu.turn, hu.ddir, h.opts ▸ hu.block, hu.inside, hlen ▸ hu.drawn, hu.nonempty⟩

theorem SameJob.issued {td td' : ThreadData} {f f' : FioFile} {env : GetEnv} {d : DataDdir} {u : IoU}
    (h : SameJob td td') (hu : Issued td' f env d u f') : Issued td f env d u f' := by
  obtain ⟨u₀, f₁, hu₀, hfits, hne, hm, hf⟩ := hu
  rw [h.opts] at hfits hne hm
  exact ⟨u₀, f₁, h.chosen hu₀, hfits, hne, h.markIoU ▸ hm, hf⟩

theorem getNextOffset_ok {o : Options} {f : FioFile} {random : Nat → RandLong} {d : DataDdir}
    {offset offset' : UInt64} (h : getNextOffset o f random d offset = .ok (true, offset')) :
    (∃ b, nextBlock o f random d = .ok (some b) ∧
      offset' = b * (o.minBs.get d).toUInt64 + f.fileOffset) ∧ offset' ≤ f.realFileSize := by
  unfold getNextOffset at h
  obtain ⟨r, hr, h⟩ := bind_eq_ok.mp h
  cases r with
  | none => cases h
  | some b =>
    simp only [pure_eq_ok, Except.ok.injEq, Prod.mk.injEq, Bool.not_eq_true', decide_eq_false_iff_not,
      UInt64.not_lt] at h
    obtain ⟨hle, rfl⟩ := h
    exact ⟨⟨b, hr, rfl⟩, hle⟩

theorem getRwDdir_opts (td : ThreadData) (elapsed : UInt64) (r : RandLong) :
    (getRwDdir td elapsed r).2.opts = td.opts ∧
      (getRwDdir td elapsed r).2.readIolog = td.readIolog ∧
      getNextBuflen (getRwDdir td elapsed r).2 = getNextBuflen td := by
  unfold getRwDdir
  split
  · split <;> exact ⟨rfl, rfl, rfl⟩
  · split <;> exact ⟨rfl, rfl, rfl⟩

/-- A job that generates its io units either syncs, or transfers what the generator chose. -/
theorem fillIoU_ok {td td' : ThreadData} {f : FioFile} {fi : Nat} {u u' : IoU} {env : GetEnv}
    (hlog : td.readIolog = false) (h : fillIoU td f fi u env = .ok (true, u', td')) :
    td'.opts = td.opts ∧ td'.readIolog = false ∧
      (u'.ddir = .sync ∨ ∃ d, Chosen td f env d u') := by
  unfold fillIoU at h
  rw [hlog] at h
  simp only [Bool.false_eq_true, if_false] at h
  split at h
  · cases h
    exact ⟨rfl, hlog, .inl rfl⟩
  · obtain ⟨hopts, hlog', hlen⟩ := getRwDdir_opts td env.elapsed env.rwmix
    generalize hturn : getRwDdir td env.elapsed env.rwmix = turn at h hopts hlog' hlen
    obtain ⟨d, td₁⟩ := turn
    obtain ⟨⟨found, offset⟩, hoff, h⟩ := bind_eq_ok.mp h
    dsimp only at h hopts hlog' hlen hoff
    cases found with
    | false => cases h
    | true =>
      obtain ⟨hblock, hin⟩ := getNextOffset_ok hoff
      simp only [Bool.not_true, Bool.false_eq_true, if_false] at h
      split at h
      · cases h
      · next hne =>
        cases h
        refine ⟨?_, ?_, .inr ⟨d, ⟨by rw [hturn], rfl, hopts ▸ hblock, hin, by rw [← hlen], hne⟩⟩⟩
        · split
          · exact hopts
          · exact hopts
        · split
          · exact hlog'.trans hlog
          · exact hlog'.trans hlog

theorem clipToFile_ddir (o : Options) (f : FioFile) (u : IoU) :
    (clipToFile o f u).2.ddir = u.ddir ∧ (clipToFile o f u).2.offset = u.offset := by
  unfold clipToFile
  split
  · split <;> exact ⟨rfl, rfl⟩
  · exact ⟨rfl, rfl⟩

theorem issueIoU_ok {td : ThreadData} {f f' : FioFile} {u u' : IoU} {d : DataDdir} {issued : Bool}
    (h : issueIoU td f u d = .ok (issued, f', u')) :
    (issued = false ∧ f' = f) ∨ (issued = true ∧ u.buflen ≠ 0 ∧ ∃ f₁, markIoU td f u d = .ok (f₁, u') ∧
      f' = { f₁ with lastPos := f₁.lastPos + u'.buflen.toUInt64 }) := by
  unfold issueIoU at h
  split at h
  · cases h
    exact .inl ⟨rfl, rfl⟩
  · next hne =>
    obtain ⟨⟨f₁, u₁⟩, hmark, h⟩ := bind_eq_ok.mp h
    cases h
    exact .inr ⟨rfl, hne, f₁, hmark, rfl⟩

/-- What `get_io_u` does to the file and hands out, for a job that generates its io units: nothing
but a sync or a refusal, or a transfer the generator issued, which the engine's `prep` may still
turn into a refusal. -/
theorem prepareIoU_ok {td td' : ThreadData} {f f' : FioFile} {fi : Nat} {u u' : IoU} {env : GetEnv}
    {ready : Bool} (hlog : td.readIolog = false)
    (h : prepareIoU td f fi u env = .ok (ready, u', td', f')) :
    (f' = f ∧ (ready = true → u'.ddir = .sync)) ∨
      ∃ d, Issued td f env d u' f' := by
  unfold prepareIoU at h
  obtain ⟨⟨filled, u₀, td₀⟩, hfill, h⟩ := bind_eq_ok.mp h
  dsimp only at h
  cases filled with
  | false =>
    cases h
    exact .inl ⟨rfl, nofun⟩
  | true =>
    obtain ⟨hopts, hlog₀, hu⟩ := fillIoU_ok hlog hfill
    have hmap : markIoU td₀ = markIoU td := by
      funext f u d
      simp only [markIoU, usesMap, hopts, hlog, hlog₀]
    obtain ⟨hcd, -⟩ := clipToFile_ddir td₀.opts f u₀
    generalize hclip : clipToFile td₀.opts f u₀ = clip at h hcd
    obtain ⟨fits, u₁⟩ := clip
    dsimp only at h hcd
    cases fits with
    | false =>
      cases h
      exact .inl ⟨rfl, nofun⟩
    | true =>
      simp only [Bool.not_true, Bool.false_eq_true, if_false] at h
      obtain hsync | ⟨d, hd⟩ := hu
      · rw [hcd, hsync] at h
        cases h
        exact .inl ⟨rfl, fun _ => hcd.trans hsync⟩
      · rw [hcd, hd.ddir] at h
        dsimp only at h
        obtain ⟨⟨issued, f₁, u₂⟩, hissue, h⟩ := bind_eq_ok.mp h
        cases h
        obtain ⟨rfl, rfl⟩ | ⟨rfl, hne, f₂, hmark, hf⟩ := issueIoU_ok hissue
        · exact .inl ⟨rfl, nofun⟩
        · rw [hopts] at hclip
          refine .inr ⟨d, u₀, f₂, hd, by rw [hclip], by rw [hclip]; exact hne, ?_, hf⟩
          rw [hclip, ← hmap]
          exact hmark

/-- The file after the zone check of `get_io_u`. -/
def zonedFile (td : ThreadData) (f : FioFile) : FioFile := (skipZone td f).2

theorem skipZone_sameJob (td : ThreadData) (f : FioFile) : SameJob td (skipZone td f).1 := by
  unfold skipZone
  split <;> exact ⟨rfl, rfl, rfl, rfl, rfl⟩

theorem getFreeIoU_sameJob {td td' : ThreadData} {i : Nat} (h : getFreeIoU td = some (i, td'))
    (f : FioFile) : SameJob td td' ∧ zonedFile td' f = zonedFile td f := by
  unfold getFreeIoU at h
  split at h
  · cases h
  · cases h
    refine ⟨⟨rfl, rfl, rfl, rfl, rfl⟩, ?_⟩
    unfold zonedFile skipZone
    split <;> rfl

/-- What `get_io_u` does to the file and hands out, for a job that generates its io units. -/
theorem getIoU_ok {td td' : ThreadData} {f f' : FioFile} {fi : Nat} {env : GetEnv} {r : Option Nat}
    (hlog : td.readIolog = false) (h : getIoU td f fi env = .ok (r, td', f')) :
    ((f' = f ∨ f' = zonedFile td f) ∧ (∀ i, r = some i → (td'.ioU i).ddir = .sync)) ∨
      ∃ d u, Issued td (zonedFile td f) env d u f' ∧ ∀ i, r = some i → td'.ioU i = u := by
  unfold getIoU at h
  split at h
  · cases h
    exact .inl ⟨.inl rfl, nofun⟩
  · next i td₀ hfree =>
    obtain ⟨hsame, hzone⟩ := getFreeIoU_sameJob hfree f
    have hsame₁ := skipZone_sameJob td₀ f
    rw [← hzone, zonedFile]
    generalize skipZone td₀ f = z at h hsame₁
    obtain ⟨td₁, f₁⟩ := z
    obtain ⟨⟨ready, u, td₂, f₂⟩, hprep, h⟩ := bind_eq_ok.mp h
    dsimp only at h hsame₁ ⊢
    have hlog₁ : td₁.readIolog = false := by rw [hsame₁.readIolog, hsame.readIolog, hlog]
    have hf : f₂ = f' := by
      split at h <;> cases h <;> rfl
    have hr : ∀ j, r = some j → ready = true ∧ td'.ioU j = u := by
      rintro j rfl
      split at h
      · next hready =>
        cases h
        exact ⟨hready, Function.update_self _ _ _⟩
      · cases h
    subst hf
    obtain ⟨rfl, hsync⟩ | ⟨d, hd⟩ := prepareIoU_ok hlog₁ hprep
    · refine .inl ⟨.inr rfl, fun j hj => ?_⟩
      obtain ⟨hready, hu⟩ := hr j hj
      rw [hu]
      exact hsync hready
    · exact .inr ⟨d, u, hsame.issued (hsame₁.issued hd), fun j hj => (hr j hj).2⟩

/-! ## Calls without a value -/

theorem getNextOffset_error {o : Options} {f : FioFile} {random : Nat → RandLong} {d : DataDdir}
    {offset : UInt64} {e : Fault} (h : getNextOffset o f random d offset = .error e) :
    nextBlock o f random d = .error e := by
  unfold getNextOffset at h
  obtain h | ⟨r, -, h⟩ := bind_eq_error.mp h
  · exact h
  · split at h <;> cases h

theorem fillIoU_error {td : ThreadData} {f : FioFile} {fi : Nat} {u : IoU} {env : GetEnv} {e : Fault}
    (hlog : td.readIolog = false) (h : fillIoU td f fi u env = .error e) :
    nextBlock td.opts f env.random (getRwDdir td env.elapsed env.rwmix).1 = .error e := by
  unfold fillIoU at h
  rw [hlog] at h
  simp only [Bool.false_eq_true, if_false] at h
  split at h
  · cases h
  · obtain ⟨hopts, -, -⟩ := getRwDdir_opts td env.elapsed env.rwmix
    generalize getRwDdir td env.elapsed env.rwmix = turn at h hopts ⊢
    obtain ⟨d, td₁⟩ := turn
    obtain h | ⟨⟨found, offset⟩, -, h⟩ := bind_eq_error.mp h
    · rw [← hopts]
      exact getNextOffset_error h
    · dsimp only at h
      split at h
      · cases h
      · split at h <;> cases h

theorem prepareIoU_error {td : ThreadData} {f : FioFile} {fi : Nat} {u : IoU} {env : GetEnv} {e : Fault}
    (hlog : td.readIolog = false) (h : prepareIoU td f fi u env = .error e) :
    nextBlock td.opts f env.random (getRwDdir td env.elapsed env.rwmix).1 = .error e ∨
      ∃ d u₀, Chosen td f env d u₀ ∧ (clipToFile td.opts f u₀).1 = true ∧
        markIoU td f (clipToFile td.opts f u₀).2 d = .error e := by
  unfold prepareIoU at h
  obtain h | ⟨⟨filled, u₀, td₀⟩, hfill, h⟩ := bind_eq_error.mp h
  · exact .inl (fillIoU_error hlog h)
  right
  dsimp only at h
  cases filled with
  | false => cases h
  | true =>
    obtain ⟨hopts, hlog₀, hu⟩ := fillIoU_ok hlog hfill
    have hmark : markIoU td₀ = markIoU td := by
      funext f u d
      simp only [markIoU, usesMap, hopts, hlog, hlog₀]
    obtain ⟨hcd, -⟩ := clipToFile_ddir td₀.opts f u₀
    rw [hopts] at h hcd
    generalize hclip : clipToFile td.opts f u₀ = clip at h hcd
    obtain ⟨fits, u₁⟩ := clip
    dsimp only at h hcd
    cases fits with
    | false => cases h
    | true =>
      simp only [Bool.not_true, Bool.false_eq_true, if_false] at h
      obtain hsync | ⟨d, hd⟩ := hu
      · rw [hcd, hsync] at h
        cases h
      · rw [hcd, hd.ddir] at h
        dsimp only at h
        obtain h | ⟨_, -, h⟩ := bind_eq_error.mp h
        · unfold issueIoU at h
          split at h
          · cases h
          · obtain h | ⟨_, -, h⟩ := bind_eq_error.mp h
            · exact ⟨d, u₀, hd, by rw [hclip], by rw [hclip, ← hmark]; exact h⟩
            · cases h
        · cases h

/-- A call of the generator without a value fails in the choice of a block or in marking. -/
theorem getIoU_error {td : ThreadData} {f : FioFile} {fi : Nat} {env : GetEnv} {e : Fault}
    (hlog : td.readIolog = false) (h : getIoU td f fi env = .error e) :
    nextBlock td.opts (zonedFile td f) env.random (getRwDdir td env.elapsed env.rwmix).1 = .error e ∨
    ∃ d u, Chosen td (zonedFile td f) env d u ∧ (clipToFile td.opts (zonedFile td f) u).1 = true ∧
      markIoU td (zonedFile td f) (clipToFile td.opts (zonedFile td f) u).2 d = .error e := by
  unfold getIoU at h
  split at h
  · cases h
  · next i td₀ hfree =>
    obtain ⟨hsame, hzone⟩ := getFreeIoU_sameJob hfree f
    have hsame₁ := skipZone_sameJob td₀ f
    rw [← hzone, zonedFile]
    generalize skipZone td₀ f = z at h hsame₁
    obtain ⟨td₁, f₁⟩ := z
    dsimp only at h hsame₁ ⊢
    obtain h | ⟨⟨ready, u, td₂, f₂⟩, -, h⟩ := bind_eq_error.mp h
    · have hopts : td₁.opts = td.opts := by rw [hsame₁.opts, hsame.opts]
      obtain h | ⟨d, u, hu, hclip, hmark⟩ :=
        prepareIoU_error (by rw [hsame₁.readIolog, hsame.readIolog, hlog]) h
      · rw [hsame₁.turn, hsame.turn, hopts] at h
        exact .inl h
      · rw [hopts] at hclip hmark
        rw [hsame₁.markIoU, hsame.markIoU] at hmark
        exact .inr ⟨d, u, hsame.chosen (hsame₁.chosen hu), hclip, hmark⟩
    · split at h <;> cases h

/-! ## Calls on one file -/

/-- One call of `get_io_u` on the file, by a job with options `o` that generates its io units; the
rest of the job may have done anything since the last call. `P` restricts the calls. The event is
the unit handed out. -/
inductive GetCall (o : Options) (P : ThreadData → FioFile → GetEnv → Prop) :
    FioFile → Option IoU → FioFile → Prop
  | issued {td td' f f' fi env i} (opts : td.opts = o) (log : td.readIolog = false) (ok : P td f env)
      (call : getIoU td f fi env = .ok (some i, td', f')) : GetCall o P f (some (td'.ioU i)) f'
  | refused {td td' f f' fi env} (opts : td.opts = o) (log : td.readIolog = false) (ok : P td f env)
      (call : getIoU td f fi env = .ok (none, td', f')) : GetCall o P f none f'

/-- The transfers among the units handed out. -/
def transfers (es : List (Option IoU)) : List IoU :=
  es.filterMap fun e => e.filter fun u => u.ddir != .sync

/-- A call changes the file as a refusal or a sync does, or as one issued transfer does. -/
theorem GetCall.cases_issued {o : Options} {P : ThreadData → FioFile → GetEnv → Prop} {f f' : FioFile}
    {e : Option IoU} (h : GetCall o P f e f') :
    ∃ td env, td.opts = o ∧ td.readIolog = false ∧ P td f env ∧
      (((f' = f ∨ f' = zonedFile td f) ∧ transfers [e] = []) ∨
        ∃ d u, Issued td (zonedFile td f) env d u f' ∧ (transfers [e] = [] ∨ transfers [e] = [u])) := by
  cases h with
  | issued opts log ok call =>
    refine ⟨_, _, opts, log, ok, ?_⟩
    obtain ⟨hf, hsync⟩ | ⟨d, u, hu, hret⟩ := getIoU_ok log call
    · exact .inl ⟨hf, by simp [transfers, hsync _ rfl]⟩
    · refine .inr ⟨d, u, hu, ?_⟩
      rw [hret _ rfl]
      by_cases hs : u.ddir = .sync
      · exact .inl (by simp [transfers, hs])
      · exact .inr (by simp [transfers, Option.filter, hs])
  | refused opts log ok call =>
    refine ⟨_, _, opts, log, ok, ?_⟩
    obtain ⟨hf, -⟩ | ⟨d, u, hu, -⟩ := getIoU_ok log call
    · exact .inl ⟨hf, rfl⟩
    · exact .inr ⟨d, u, hu, .inl rfl⟩

theorem transfers_append (es fs : List (Option IoU)) :
    transfers (es ++ fs) = transfers es ++ transfers fs := by
  simp [transfers]

theorem sameFile_zonedFile (td : ThreadData) (f : FioFile) :
    SameFile f (zonedFile td f) ∧ (zonedFile td f).map = f.map := by
  unfold zonedFile skipZone
  split <;> exact ⟨⟨rfl, rfl, rfl, rfl⟩, rfl⟩

theorem SameFile.randomMapFree {o : Options} {f g : FioFile} (h : SameFile f g) (hmap : g.map = f.map) :
    randomMapFree o g = randomMapFree o f := by
  funext b
  simp only [Fio.randomMapFree, randMapIdx, randMapBit, toMapBlock, h.fileOffset, hmap]

/-! ## Running calls -/

/-- The units that calls on file 0 hand out one after the other, when they are all calls of
`GetCall o P` and none faults. -/
def replay (o : Options) (P : ThreadData → FioFile → GetEnv → Prop)
    [∀ td f env, Decidable (P td f env)] :
    List GetEnv → ThreadData → FioFile → Option (List (Option IoU))
  | [], _, _ => some []
  | env :: envs, td, f =>
    if td.opts = o ∧ td.readIolog = false ∧ P td f env then
      match getIoU td f 0 env with
      | .ok (r, td', f') => (replay o P envs td' f').map (r.map td'.ioU :: ·)
      | .error _ => none
    else
      none

theorem replay_run {o : Options} {P : ThreadData → FioFile → GetEnv → Prop}
    [∀ td f env, Decidable (P td f env)] {envs : List GetEnv} {td : ThreadData} {f : FioFile}
    {es : List (Option IoU)} (h : replay o P envs td f = some es) :
    ∃ f', Run (GetCall o P) f es f' := by
  induction envs generalizing td f es with
  | nil =>
    cases h
    exact ⟨f, .nil⟩
  | cons env envs ih =>
    rw [replay] at h
    split at h
    · next hcond =>
      obtain ⟨hopts, hlog, hP⟩ := hcond
      split at h
      · next r td' f' hcall =>
        obtain ⟨es', hes, rfl⟩ := Option.map_eq_some_iff.mp h
        obtain ⟨f'', hrun⟩ := ih hes
        have hfirst : GetCall o P f (r.map td'.ioU) f' := by
          cases r with
          | none => exact .refused hopts hlog hP hcall
          | some i => exact .issued hopts hlog hP hcall
        exact ⟨f'', Run.append (Run.nil.snoc hfirst) hrun⟩
      · cases h
    · cases h

/-- No restriction on the calls. -/
def anyCall : ThreadData → FioFile → GetEnv → Prop := fun _ _ _ => True

instance (td : ThreadData) (f : FioFile) (env : GetEnv) : Decidable (anyCall td f env) :=
  .isTrue trivial

/-- A buffered random write job on one file, two units deep. -/
def randomWriter : Options :=
  { fillDefThread ⟨false, false, false, false⟩ with ddir := .write, sequential := false, iodepth := 2 }

/-- A file of `size` bytes that the job uses whole, its map cleared. -/
def clearedFile (size : UInt64) (numMaps : UInt32) : FioFile :=
  ⟨true, size, size, 0, 0, FileMap.cleared numMaps⟩

/-- A call whose random numbers are all zero. -/
def zeroEnv : GetEnv := ⟨fun _ => 0, 0, 0, 0, false⟩

/-! ## Transfers lie in the file -/

/-- A transfer is not empty and lies between the offset and the end of the file. -/
def InFile (f : FioFile) (u : IoU) : Prop :=
  0 < u.buflen.toNat ∧ f.fileOffset.toNat ≤ u.offset.toNat ∧
    u.offset.toNat + u.buflen.toNat ≤ f.realFileSize.toNat

/-- What a call needs for the transfer it generates to lie in the file. The position and the end of
the transfer must not overflow. In a job with a map, `mark_random_map` must have a block to mark:
the first one is free, the length drawn covers it, and the end of the file does not cut it. -/
def TransferOk (td : ThreadData) (f : FioFile) (env : GetEnv) : Prop :=
  let d := (getRwDdir td env.elapsed env.rwmix).1
  let minBs := td.opts.minBs.get d
  let len := getNextBuflen td env.bsrange d
  ∀ b, nextBlock td.opts (zonedFile td f) env.random d = .ok (some b) →
    b.toNat * minBs.toNat + f.fileOffset.toNat + len.toNat < 2 ^ 64 ∧
    (usesMap td = true →
      randomMapFree td.opts f (b + f.fileOffset / minBs.toUInt64) = .ok true ∧ minBs ≤ len ∧
      (td.opts.flags.rawio = true ∨
        b.toNat * minBs.toNat + f.fileOffset.toNat + minBs.toNat ≤ f.realFileSize.toNat))

/-- The end-of-file check, when the end of the transfer does not overflow. -/
theorem clipToFile_ok {o : Options} {f : FioFile} {u : IoU}
    (hsum : u.offset.toNat + u.buflen.toNat < 2 ^ 64) (hin : u.offset ≤ f.realFileSize)
    (h : (clipToFile o f u).1 = true) :
    (clipToFile o f u).2.offset = u.offset ∧
      u.offset.toNat + (clipToFile o f u).2.buflen.toNat ≤ f.realFileSize.toNat ∧
      ((clipToFile o f u).2.buflen = u.buflen ∨ (o.flags.rawio = false ∧
        u.offset.toNat + (clipToFile o f u).2.buflen.toNat = f.realFileSize.toNat)) := by
  have hend : (u.buflen.toUInt64 + u.offset).toNat = u.offset.toNat + u.buflen.toNat := by
    rw [UInt64.toNat_add, UInt32.toNat_toUInt64]
    omega
  rw [UInt64.le_iff_toNat_le] at hin
  unfold clipToFile at h ⊢
  split at h
  · next hlt =>
    rw [UInt64.lt_iff_toNat_lt, hend] at hlt
    split at h
    · cases h
    · next hraw =>
      have hcut : (f.realFileSize - u.offset).toUInt32.toNat = f.realFileSize.toNat - u.offset.toNat := by
        have hlen := UInt32.toNat_lt u.buflen
        rw [UInt64.toNat_toUInt32, UInt64.toNat_sub_of_le _ _ (UInt64.le_iff_toNat_le.mpr hin)]
        omega
      rw [if_pos (by rw [UInt64.lt_iff_toNat_lt, hend]; exact hlt), if_neg hraw]
      dsimp only
      rw [hcut]
      exact ⟨rfl, by omega, .inr ⟨by simpa using hraw, by omega⟩⟩
  · next hge =>
    rw [if_neg hge]
    rw [UInt64.lt_iff_toNat_lt, hend, not_lt] at hge
    exact ⟨rfl, hge, .inl rfl⟩

theorem clipToFile_le {o : Options} {f : FioFile} {u : IoU} (hin : u.offset ≤ f.realFileSize)
    (h : (clipToFile o f u).1 = true) : (clipToFile o f u).2.buflen.toNat ≤ u.buflen.toNat := by
  by_cases hsum : u.offset.toNat + u.buflen.toNat < 2 ^ 64
  · obtain ⟨-, hend, hlen | ⟨-, hlen⟩⟩ := clipToFile_ok hsum hin h
    · rw [hlen]
    · by_contra hgt
      have hcut : ¬f.realFileSize < u.buflen.toUInt64 + u.offset := by
        rw [UInt64.lt_iff_toNat_lt, UInt64.toNat_add, UInt32.toNat_toUInt64]
        omega
      rw [clipToFile, if_neg hcut] at hgt
      exact hgt (le_refl _)
  · have hbuf := UInt32.toNat_lt u.buflen
    have hcut : ¬f.realFileSize < u.buflen.toUInt64 + u.offset := by
      rw [UInt64.le_iff_toNat_le] at hin
      rw [UInt64.lt_iff_toNat_lt, UInt64.toNat_add, UInt32.toNat_toUInt64]
      have hoff := UInt64.toNat_lt u.offset
      omega
    rw [clipToFile, if_neg hcut]

/-- What is left of the io size only shortens the length drawn. -/
theorem getNextBuflen_le_draw (td : ThreadData) (r : RandLong) (d : DataDdir) :
    getNextBuflen td r d ≤ drawBuflen td.opts r d := by
  rw [UInt32.le_iff_toNat_le]
  unfold getNextBuflen
  dsimp only
  split
  · next hlt =>
    split
    · exact Nat.zero_le _
    · rw [UInt64.lt_iff_toNat_lt, UInt32.toNat_toUInt64] at hlt
      rw [UInt64.toNat_toUInt32]
      exact le_trans (Nat.mod_le _ _) (le_of_lt hlt)
  · exact le_refl _

theorem offset_toNat {b fo : UInt64} {m : UInt32} (h : b.toNat * m.toNat + fo.toNat < 2 ^ 64) :
    (b * m.toUInt64 + fo).toNat = b.toNat * m.toNat + fo.toNat := by
  have hmul : b.toNat * m.toNat < 2 ^ 64 := by omega
  rw [UInt64.toNat_add, UInt64.toNat_mul, UInt32.toNat_toUInt64, Nat.mod_eq_of_lt hmul,
    Nat.mod_eq_of_lt h]

/-- The block `mark_random_map` computes from an offset that did not overflow. -/
theorem offset_div {b fo : UInt64} {m : UInt32} (hm : m ≠ 0)
    (h : b.toNat * m.toNat + fo.toNat < 2 ^ 64) :
    (b * m.toUInt64 + fo) / m.toUInt64 = b + fo / m.toUInt64 := by
  have hm' : 0 < m.toNat := Nat.pos_of_ne_zero fun h0 => hm (UInt32.toNat_inj.mp h0)
  have hdiv : (b.toNat * m.toNat + fo.toNat) / m.toNat = b.toNat + fo.toNat / m.toNat := by
    rw [Nat.add_comm, Nat.add_mul_div_right _ _ hm', Nat.add_comm]
  have hle : b.toNat + fo.toNat / m.toNat < 2 ^ 64 := by
    rw [← hdiv]
    exact lt_of_le_of_lt (Nat.div_le_self _ _) h
  rw [← UInt64.toNat_inj, UInt64.toNat_div, offset_toNat h, UInt32.toNat_toUInt64, hdiv,
    UInt64.toNat_add, UInt64.toNat_div, UInt32.toNat_toUInt64, Nat.mod_eq_of_lt hle]

/-- A block is only chosen when the minimum block size is not zero. -/
theorem nextBlock_minBs {o : Options} {f : FioFile} {random : Nat → RandLong} {d : DataDdir}
    {r : Option UInt64} (h : nextBlock o f random d = .ok r) : o.minBs.get d ≠ 0 := by
  rintro h0
  unfold nextBlock at h
  rw [h0] at h
  split at h
  · obtain ⟨b, hb, -⟩ := bind_eq_ok.mp h
    exact (udiv_eq_ok.mp hb).1 rfl
  · obtain ⟨b, hb, -⟩ := bind_eq_ok.mp h
    exact (udiv_eq_ok.mp hb).1 rfl

theorem randomMapFree_rwMinBs {o : Options} {f : FioFile} {b : UInt64} {r : Bool}
    (h : randomMapFree o f b = .ok r) : o.rwMinBs ≠ 0 := by
  rintro h0
  rw [randomMapFree, randMapIdx, toMapBlock_zero h0] at h
  cases h

/-- `mark_random_map` keeps a transfer that reaches over its first block, when that is free. -/
theorem markRandomMap_pos {o : Options} {f f' : FioFile} {u u' : IoU} {d : DataDdir}
    (hfree : randomMapFree o f (u.offset / (o.minBs.get d).toUInt64) = .ok true)
    (hlen : o.minBs.get d ≤ u.buflen) (h : markRandomMap o f u d = .ok (f', u')) :
    0 < u'.buflen.toNat ∧ u'.buflen ≤ u.buflen ∧ u'.offset = u.offset := by
  have hrw := randomMapFree_rwMinBs hfree
  obtain ⟨hm, k, hk, hu, hlen', hf, -, hstop⟩ := markRandomMap_ok h
  have hm' : 0 < (o.minBs.get d).toNat := Nat.pos_of_ne_zero fun h0 => hm (UInt32.toNat_inj.mp h0)
  have hk0 : k ≠ 0 := by
    rintro rfl
    have hpos : 0 < u.buflen.toNat / (o.minBs.get d).toNat :=
      Nat.div_pos (UInt32.le_iff_toNat_le.mp hlen) hm'
    have hused := hstop hpos
    have hb : u.offset / (o.minBs.get d).toUInt64 + UInt64.ofNat 0 =
        u.offset / (o.minBs.get d).toUInt64 := by simp
    rw [hf, markBlocks, hb] at hused
    rw [randomMapFree_eq hrw] at hfree
    split at hfree
    · rw [hused] at hfree
      cases hfree
    · cases hfree
  refine ⟨?_, ?_, by rw [hu]⟩
  · rw [hlen']
    exact Nat.mul_pos (Nat.pos_of_ne_zero hk0) hm'
  · rw [UInt32.le_iff_toNat_le, hlen']
    exact le_trans (Nat.mul_le_mul_right _ hk) (Nat.div_mul_le_self _ _)

theorem Issued.inFile {td : ThreadData} {f f' : FioFile} {env : GetEnv} {d : DataDdir} {u : IoU}
    (hok : TransferOk td f env) (h : Issued td (zonedFile td f) env d u f') : InFile f u := by
  obtain ⟨⟨hfo, hreal, hoff, -⟩, hmap⟩ := sameFile_zonedFile td f
  have hfree := (sameFile_zonedFile td f).1.randomMapFree (o := td.opts) hmap
  obtain ⟨u₀, f₁, hu₀, hfits, hne, hmark, -⟩ := h
  obtain ⟨b, hb, hoffset⟩ := hu₀.block
  have hm := nextBlock_minBs hb
  unfold TransferOk at hok
  dsimp only at hok
  rw [hu₀.turn] at hok
  obtain ⟨hsum, hcut⟩ := hok b hb
  rw [hoff] at hoffset
  rw [← hu₀.drawn] at hsum hcut
  have ho : u₀.offset.toNat = b.toNat * (td.opts.minBs.get d).toNat + f.fileOffset.toNat := by
    rw [hoffset, offset_toNat (by omega)]
  have hin := hu₀.inside
  obtain ⟨hsame, hend, hlen⟩ := clipToFile_ok (by omega) hin hfits
  rw [hreal] at hend hlen
  generalize (clipToFile td.opts (zonedFile td f) u₀).2 = u₁ at *
  unfold markIoU at hmark
  split at hmark
  · next huse =>
    obtain ⟨hf, hlong, htail⟩ := hcut huse
    rw [← hfree, ← offset_div hm (by omega), ← hoffset, ← hsame] at hf
    have hcover : td.opts.minBs.get d ≤ u₁.buflen := by
      obtain hlen | ⟨hraw, hlen⟩ := hlen
      · rw [hlen]
        exact hlong
      · rw [hraw] at htail
        have htail := htail.resolve_left Bool.false_ne_true
        rw [UInt32.le_iff_toNat_le]
        omega
    obtain ⟨hpos, hle, hkeep⟩ := markRandomMap_pos hf hcover hmark
    rw [UInt32.le_iff_toNat_le] at hle
    exact ⟨hpos, by rw [hkeep, hsame]; omega, by rw [hkeep, hsame]; omega⟩
  · cases hmark
    have hpos : u.buflen.toNat ≠ 0 := fun h0 => hne (UInt32.toNat_inj.mp h0)
    refine ⟨by omega, by rw [hsame]; omega, by rw [hsame]; exact hend⟩

theorem sameFile_lastPos (f : FioFile) (p : UInt64) : SameFile f { f with lastPos := p } :=
  ⟨rfl, rfl, rfl, rfl⟩

theorem Issued.sameFile {td : ThreadData} {f f' : FioFile} {env : GetEnv} {d : DataDdir} {u : IoU}
    (h : Issued td f env d u f') : SameFile f f' := by
  obtain ⟨u₀, f₁, -, -, -, hmark, rfl⟩ := h
  refine SameFile.trans ?_ (sameFile_lastPos _ _)
  unfold markIoU at hmark
  split at hmark
  · obtain ⟨-, k, -, -, -, rfl, -⟩ := markRandomMap_ok hmark
    exact sameFile_markBlocks _ _ _ _
  · cases hmark
    exact SameFile.refl f

theorem GetCall.sameFile {o : Options} {P : ThreadData → FioFile → GetEnv → Prop} {f f' : FioFile}
    {e : Option IoU} (h : GetCall o P f e f') : SameFile f f' := by
  obtain ⟨td, env, -, -, -, ⟨rfl | rfl, -⟩ | ⟨d, u, hu, -⟩⟩ := h.cases_issued
  · exact SameFile.refl _
  · exact (sameFile_zonedFile td f).1
  · exact (sameFile_zonedFile td f).1.trans hu.sameFile

theorem SameFile.inFile {f g : FioFile} (h : SameFile f g) {u : IoU} (hu : InFile g u) : InFile f u := by
  rw [InFile, h.fileOffset, h.realFileSize] at hu
  exact hu

/-- A test on the value of an outcome. -/
def decidableOk {α : Type} {x : Outcome (Option α)} {Q : α → Prop} [DecidablePred Q] :
    Decidable (∀ b, x = .ok (some b) → Q b) :=
  match x with
  | .ok (some b) => decidable_of_iff (Q b) ⟨fun h _ hb => by cases hb; exact h, fun h => h b rfl⟩
  | .ok none => .isTrue nofun
  | .error _ => .isTrue nofun

instance (td : ThreadData) (f : FioFile) (env : GetEnv) : Decidable (TransferOk td f env) :=
  decidableOk

end Rtfsc.Fio
