import Rtfsc.Jdk.SyncQueue

/-!
# The waking of the synchronizer

A thread parks when the node before its own has the status `SIGNAL`. As long as no thread gives up, that
is enough: whoever unlocks sees the status of the head, or has cleared it and wakes the thread behind it.
-/

namespace Rtfsc.Jdk

open Rtfsc.Machine

variable {Θ ν : Type}

namespace SyncPc

/-- Where only a thread comes that has given up, or that has seen one. -/
def cancels : SyncPc Θ ν → Bool
  | .skip .. | .skipTo .. | .skipStatus .. | .skipped .. | .cancel _ | .cancelPrev _ | .cancelNext ..
  | .cancelMark .. | .cancelTail .. | .cancelCasTail .. | .cancelCut .. | .cancelHead .. | .cancelPredStatus ..
  | .cancelSignal .. | .cancelPredThread .. | .cancelReadNext .. | .cancelNextStatus .. | .cancelLink ..
  | .cancelSelf _ => true
  | .unparkStatus c _ | .unparkClear c _ _ | .unparkNext c _ | .unparkNextStatus c _ _ | .unparkTail c _
  | .scanStatus c _ _ _ | .scanPrev c _ _ _ | .unparkThread c _ _ | .unpark c _ _ => c
  | _ => false

/-- A thread that will look at the status of the head `q`. -/
def sees (q : ν) : SyncPc Θ ν → Prop
  | .releaseHead => True
  | .releaseStatus h => h = q
  | pc => pc.holds = true

end SyncPc

namespace Sync

variable {s s' : Sync Θ ν} {θ u : Θ} {x y n p q t : ν} {pc pc₀ : SyncPc Θ ν} {e : SyncEvent Θ ν}

/-- A thread in `unparkSuccessor(q)` that will wake the one behind `q`, whose node is `x`. -/
def Covers (s : Sync Θ ν) (q x : ν) : SyncPc Θ ν → Prop
  | .unparkStatus _ m | .unparkClear _ m _ | .unparkNext _ m | .unparkTail _ m => m = q
  | .unparkNextStatus _ _ y | .unparkThread _ _ y => y = x
  | .scanStatus _ m t _ => m = q ∧ s.place x ≤ s.place t
  | .scanPrev _ m t found => m = q ∧ (s.place x < s.place t ∨ t = x ∧ found = some x)
  | .unpark _ _ thread => thread = s.thread x
  | _ => False

/-- A thread is woken behind the node `x`, unless it unlocks first: the node before has `SIGNAL` and is not the
head yet, or some thread will see it, or wakes. -/
def Cared (s : Sync Θ ν) (x : ν) : Prop :=
  ∃ q, s.prev x = some q ∧
    (s.waitStatus q = signalStatus ∧ (s.head = some q → ∃ v, (s.pc v).sees q) ∨ ∃ v, s.Covers q x (s.pc v))

/-- A thread parks, or will park. -/
def Depends (s : Sync Θ ν) (x : ν) : SyncPc Θ ν → Prop
  | .park n => n = x
  | .predStatus n p => n = x ∧ s.waitStatus p = signalStatus
  | _ => False

/-- No thread has given up, and each that parks is woken. -/
structure Awake (s : Sync Θ ν) : Prop where
  calm : ∀ θ, (s.pc θ).cancels = false
  status : ∀ x, s.waitStatus x = 0 ∨ s.waitStatus x = signalStatus
  next : ∀ x y, s.next x = some y → s.Behind x y
  mine : ∀ θ x, (s.pc θ).own = some x → (s.pc θ).holds = false → s.thread x = some θ
  served : ∀ h x, s.head = some h → s.place h < s.place x → ∃ θ, (s.pc θ).own = some x
  cared : ∀ θ x, s.Depends x (s.pc θ) → s.permit θ = true ∨ s.Cared x

variable [DecidableEq Θ]

theorem Awake.not_cancelled (ha : s.Awake) (x : ν) : ¬s.Cancelled x := by
  rw [Cancelled]
  rcases ha.status x with hx | hx <;> rw [hx] <;> decide

theorem Depends.waits (hq : s.Queued) (hd : s.Depends x (s.pc u)) :
    (s.pc u).own = some x ∧ s.Waits x ∧ ∃ q, s.prev x = some q := by
  have hdo := hq.doing u
  generalize s.pc u = pc at hd hdo
  have hw : pc.own = some x ∧ s.Waits x := by
    cases pc with
    | park n =>
      cases hd
      exact ⟨rfl, hdo⟩
    | predStatus n p =>
      cases hd.1
      exact ⟨rfl, hdo.1⟩
    | _ => cases hd
  obtain ⟨-, h, hh, hlt⟩ := hw.2
  exact ⟨hw.1, hw.2, Option.ne_none_iff_exists'.mp (hq.linked h x hh hlt)⟩

/-- What a step writes that takes a thread from `pc₀` to `pc`, and how it cares for the others. -/
structure WakeStep (s s' : Sync Θ ν) (θ : Θ) (pc₀ pc : SyncPc Θ ν) : Prop where
  calm : pc₀.cancels = false → pc.cancels = false := by first | exact id | exact fun _ => rfl
  status : ∀ q, s'.waitStatus q = s.waitStatus q ∨
    s'.waitStatus q = signalStatus ∧ (∃ n, pc₀.own = some n ∧ s.Waits n ∧ s.prev n = some q) ∨
    s'.waitStatus q = 0 ∧ (0 < s.place q → ∀ x, s'.Covers q x pc) := by exact fun _ => .inl rfl
  next : ∀ x y, s'.next x = some y → s.next x = some y ∨ s'.Behind x y := by exact fun _ _ => .inl
  thread : ∀ u x, u ≠ θ → (s.pc u).own = some x → s'.thread x = s.thread x := by exact fun _ _ _ _ => rfl
  mine : ∀ x, pc.own = some x → pc.holds = false →
    pc₀.own = some x ∧ pc₀.holds = false ∧ s'.thread x = s.thread x ∨ s'.thread x = some θ := by
    first | exact fun _ h _ => .inl ⟨h, rfl, rfl⟩ | (intro _ h h'; first | (cases h'; done) | (cases h; done))
  served : ∀ x, pc₀.own = some x → pc.own = some x ∨ s'.head = some x := by
    first | exact fun _ => .inl | (intro _ h; cases h)
  placed : ∀ x, 0 < s'.place x → 0 < s.place x ∨ pc.own = some x ∨ s'.head = some x := by
    exact fun _ => .inl
  permit : ∀ u, u ≠ θ → s.permit u = true → s'.permit u = true := by exact fun _ _ => id
  head : ∀ q, s'.head = some q → s.head = some q ∨ s.head = none ∨ pc.sees q := by exact fun _ => .inl
  sees : ∀ x q, s.head = some q → s.waitStatus q = signalStatus → pc₀.sees q →
    pc.sees q ∨ s'.Covers q x pc := by first | exact fun _ _ _ _ => .inl | (intro _ _ _ _ h; cases h)
  covers : ∀ u x q, u ≠ θ → (s.pc u).own = some x → (s.pc u).holds = false → s.Waits x →
    s.prev x = some q → s.Covers q x pc₀ → s'.permit u = true ∨ s'.Covers q x pc := by
    first | exact fun _ _ _ _ _ _ _ _ => .inr | (intro _ _ _ _ _ _ _ _ h; cases h)
  depends : ∀ x, s'.Depends x pc → s'.permit θ = true ∨ s'.Cared x := by intro _ h; cases h

theorem Awake.go {s₁ : Sync Θ ν} (ha : s.Awake) (hq : s.Queued) (hn : ∃ pc', s.Next (s₁.setPc θ pc) θ pc')
    (hpc : s.pc θ = pc₀) (hw : s.WakeStep (s₁.setPc θ pc) θ pc₀ pc) : (s₁.setPc θ pc).Awake := by
  have hself : (s₁.setPc θ pc).pc θ = pc := Function.update_self ..
  generalize s₁.setPc θ pc = s' at hself hn hw ⊢
  subst hpc
  obtain ⟨pc', hn⟩ := hn
  obtain rfl : pc' = pc := by rw [← hself, hn.goes, Function.update_self]
  have hother : ∀ u, u ≠ θ → s'.pc u = s.pc u := fun u hu => by rw [hn.goes, Function.update_of_ne hu]
  obtain ⟨hcalm, hstatus, hnext, hthread, hmine, hserved, hplaced, hpermit, hhead, hsees, hcovers, hdepends⟩ := hw
  refine ⟨fun u => ?_, fun x => ?_, fun x y hxy => ?_, fun u x hx hfree => ?_, fun h x hh hlt => ?_, fun u x hd => ?_⟩
  · rcases eq_or_ne u θ with rfl | hu
    · rw [hself]
      exact hcalm (ha.calm u)
    · rw [hother u hu]
      exact ha.calm u
  · rcases hstatus x with hsame | ⟨hsig, -⟩ | ⟨hzero, -⟩
    · rw [hsame]
      exact ha.status x
    · exact .inr hsig
    · exact .inl hzero
  · exact (hnext x y hxy).elim (fun h => hn.behind x y (ha.next x y h)) id
  · rcases eq_or_ne u θ with rfl | hu
    · rw [hself] at hx hfree
      rcases hmine x hx hfree with ⟨hold, hfree', hsame⟩ | hnew
      · exact hsame.trans (ha.mine u x hold hfree')
      · exact hnew
    · rw [hother u hu] at hx hfree
      exact (hthread u x hu hx).trans (ha.mine u x hx hfree)
  · have hnot : s'.head ≠ some x := fun hx => by
      cases hh.symm.trans hx
      exact absurd hlt (Nat.lt_irrefl _)
    rcases hplaced x (Nat.zero_lt_of_lt hlt) with hpos | hx | hx
    · have hs := hn.spares
      obtain ⟨h₀, hh₀, hlt₀⟩ : ∃ h₀, s.head = some h₀ ∧ s.place h₀ < s.place x := by
        cases hp : s.head with
        | none => cases hp.symm.trans (hq.noTail (hq.noHead hp) x hpos)
        | some p =>
          refine ⟨p, rfl, ?_⟩
          rw [hs.place x hpos] at hlt
          rcases hq.head_cases hs hp with hsame | ⟨n, -, hw, hb, hh'⟩
          · cases hh.symm.trans hsame
            rwa [hs.place h (hq.head h hp).1] at hlt
          · cases hh.symm.trans hh'
            exact Nat.lt_trans hb.2.1 (hs.place h hw.pos ▸ hlt)
      obtain ⟨u, hu⟩ := ha.served h₀ x hh₀ hlt₀
      rcases eq_or_ne u θ with rfl | hne
      · exact ⟨u, hself.symm ▸ (hserved x hu).resolve_right hnot⟩
      · exact ⟨u, (hother u hne).symm ▸ hu⟩
    · exact ⟨θ, hself.symm ▸ hx⟩
    · exact absurd hx hnot
  · rcases eq_or_ne u θ with rfl | hu
    · rw [hself] at hd
      exact hdepends x hd
    rw [hother u hu] at hd
    have hs := hn.spares
    -- the status of the node before `x` is not set by another thread
    have hd₀ : s.Depends x (s.pc u) := by
      have hdo := hq.doing u
      have halone : ∀ n, (s.pc u).own = some n → (s.pc θ).own ≠ some n := fun n hu' hθ =>
        hu (hq.alone u θ n hu' hθ)
      generalize s.pc u = pcu at hd hdo halone
      cases pcu with
      | park n => exact hd
      | predStatus n p =>
        refine ⟨hd.1, ?_⟩
        rcases hstatus p with hsame | ⟨-, m, hm, hw, hprev⟩ | ⟨hzero, -⟩
        · exact hsame.symm.trans hd.2
        · cases hq.eq_of_behind (hq.waits_behind hdo.1 hdo.2) (hq.waits_behind hw hprev) hdo.1.1 hw.1
          exact absurd hm (halone n rfl)
        · cases hzero.symm.trans hd.2
      | _ => cases hd
    obtain ⟨hown, hw, q, hprev⟩ := hd₀.waits hq
    have hfree : (s.pc u).holds = false := by
      generalize s.pc u = pcu at hd
      cases pcu <;> first | rfl | cases hd
    rcases ha.cared u x hd₀ with hp | ⟨q', hprev', hcare⟩
    · exact .inl (hpermit u hu hp)
    cases hprev.symm.trans hprev'
    have hprev₁ := (hs.node u x hu hown).2.1.trans hprev
    have hpos := (hq.waits_behind hw hprev).1
    have hby : s'.Covers q x pc' → s'.Cared x := fun hc => ⟨q, hprev₁, .inr ⟨θ, hself.symm ▸ hc⟩⟩
    rcases hcare with ⟨hsig, hsee⟩ | ⟨v, hv⟩
    · have hsig' : s'.waitStatus q = signalStatus ∨ s'.Covers q x pc' := by
        rcases hstatus q with hsame | ⟨hset, -⟩ | ⟨-, hc⟩
        · exact .inl (hsame.trans hsig)
        · exact .inl hset
        · exact .inr (hc hpos x)
      rcases hsig' with hsig' | hc
      · by_cases hh' : s'.head = some q
        · rcases hhead q hh' with hh | hnone | hsees'
          · obtain ⟨v, hv⟩ := hsee hh
            rcases eq_or_ne v θ with rfl | hne
            · rcases hsees x q hh hsig hv with hsees' | hc
              · exact .inr ⟨q, hprev₁, .inl ⟨hsig', fun _ => ⟨v, hself.symm ▸ hsees'⟩⟩⟩
              · exact .inr (hby hc)
            · exact .inr ⟨q, hprev₁, .inl ⟨hsig', fun _ => ⟨v, (hother v hne).symm ▸ hv⟩⟩⟩
          · obtain ⟨-, h, hh, -⟩ := hw
            cases hh.symm.trans hnone
          · exact .inr ⟨q, hprev₁, .inl ⟨hsig', fun _ => ⟨θ, hself.symm ▸ hsees'⟩⟩⟩
        · exact .inr ⟨q, hprev₁, .inl ⟨hsig', fun hh => absurd hh hh'⟩⟩
      · exact .inr (hby hc)
    · rcases eq_or_ne v θ with rfl | hne
      · exact (hcovers u x q hu hown hfree hw hprev hv).imp_right hby
      · refine .inr ⟨q, hprev₁, .inr ⟨v, ?_⟩⟩
        rw [hother v hne]
        generalize s.pc v = pcv at hv
        have hplace : ∀ t, s.place x ≤ s.place t → s'.place t = s.place t := fun t ht =>
          hs.place t (Nat.lt_of_lt_of_le hw.pos ht)
        have hx := hplace x (Nat.le_refl _)
        cases pcv with
        | scanStatus c m t => exact ⟨hv.1, by rw [hx, hplace t hv.2]; exact hv.2⟩
        | scanPrev c m t =>
          refine ⟨hv.1, hv.2.imp_left fun hlt => ?_⟩
          rwa [hx, hplace t (Nat.le_of_lt hlt)]
        | unpark c m thread => exact Eq.trans hv (hthread u x hu hown).symm
        | _ => exact hv

theorem setPc_of_ne (hu : u ≠ θ) : (s.setPc θ pc).pc u = s.pc u := Function.update_of_ne hu ..

/-- A thread that does not care for a node may go on. -/
theorem Cared.setPc (hc : s.Cared x) (hsees : ∀ q, ¬(s.pc θ).sees q) (hcovers : ∀ q, ¬s.Covers q x (s.pc θ)) :
    (s.setPc θ pc).Cared x := by
  have hne : ∀ v, v = θ ∨ (s.setPc θ pc).pc v = s.pc v := fun v => (eq_or_ne v θ).imp_right setPc_of_ne
  obtain ⟨q, hprev, ⟨hsig, hsee⟩ | ⟨v, hv⟩⟩ := hc
  · refine ⟨q, hprev, .inl ⟨hsig, fun hh => ?_⟩⟩
    obtain ⟨v, hv⟩ := hsee hh
    obtain rfl | hsame := hne v
    · exact absurd hv (hsees q)
    · exact ⟨v, hsame.symm ▸ hv⟩
  · obtain rfl | hsame := hne v
    · exact absurd hv (hcovers q)
    · exact ⟨q, hprev, .inr ⟨v, hsame.symm ▸ hv⟩⟩

theorem WakeStep.scan [DecidableEq ν] {c : Bool} {m : ν} {found t : Option ν} (hown : pc₀.own = none)
    (hcalm : pc₀.cancels = false → c = false) (hsees : ∀ q, ¬pc₀.sees q)
    (hcovers : ∀ x q, s.Waits x → s.prev x = some q → s.Covers q x pc₀ → s.Covers q x (scan c m found t)) :
    s.WakeStep (s.setPc θ (scan c m found t)) θ pc₀ (scan c m found t) := by
  have hscan : (Sync.scan c m found t : SyncPc Θ ν).cancels = c ∧
      (Sync.scan c m found t : SyncPc Θ ν).own = none ∧
      ∀ (s' : Sync Θ ν) (x : ν), ¬s'.Depends x (Sync.scan c m found t) := by
    rcases scan_cases (Θ := Θ) c m found t with heq | ⟨y, -, heq⟩ | ⟨y, -, -, heq⟩
    · rw [heq]
      cases c <;> exact ⟨rfl, rfl, by rintro _ _ ⟨⟩⟩
    · rw [heq]
      exact ⟨rfl, rfl, by rintro _ _ ⟨⟩⟩
    · rw [heq]
      exact ⟨rfl, rfl, by rintro _ _ ⟨⟩⟩
  obtain ⟨hcancels, hnone, hdepends⟩ := hscan
  exact {
    calm := fun h => hcancels.trans (hcalm h)
    mine := fun x hx => by cases hnone.symm.trans hx
    served := fun x hx => by cases hown.symm.trans hx
    sees := fun x q _ _ hsee => absurd hsee (hsees q)
    covers := fun u x q _ _ _ hw hprev hc => .inr (hcovers x q hw hprev hc)
    depends := fun x hx => absurd hx (hdepends _ x) }

variable [DecidableEq ν]

theorem Awake.access (ha : s.Awake) (hq : s.Queued) (hl : s.Locked) (hacc : s.access θ = some s') :
    s'.Awake := by
  have hn := hq.access_next hacc
  have hd := hq.doing θ
  have hcalm := ha.calm θ
  have hnc := ha.not_cancelled
  have hown : ∀ u x, u ≠ θ → (s.pc u).own = some x → (s.pc θ).own ≠ some x := fun u x hu hx hθ =>
    hu (hq.alone u θ x hx hθ)
  rw [Sync.access] at hacc
  generalize hpc : s.pc θ = pc₀ at hd hcalm hacc hown
  cases pc₀ with
  | casTail n t =>
    dsimp only at hacc
    split at hacc <;> cases hacc
    · refine ha.go hq hn hpc { placed := fun x hx => ?_ }
      exact ((hq.place_last hd.1.1).placed x hx).symm.imp_right fun hx => .inl (congrArg some hx.symm)
    · exact ha.go hq hn hpc {}
  | linkNext n p =>
    cases hacc
    refine ha.go hq hn hpc { next := fun x y hxy => ?_ }
    change Function.update s.next p (some n) x = some y at hxy
    rcases eq_or_ne x p with rfl | hx
    · rw [Function.update_self] at hxy
      cases hxy
      exact .inr (hq.waits_behind hd.1 hd.2)
    · rw [Function.update_of_ne hx] at hxy
      exact .inl hxy
  | predecessor n =>
    dsimp only at hacc
    split at hacc <;> cases hacc
    · obtain ⟨-, h, hh, hlt⟩ := hd
      exact absurd ‹_› (hq.linked h n hh hlt)
    · exact ha.go hq hn hpc {}
  | isHead n p =>
    dsimp only at hacc
    split at hacc <;> cases hacc
    · exact ha.go hq hn hpc {}
    · refine ha.go hq hn hpc { depends := ?_ }
      rintro _ ⟨rfl, hsig⟩
      exact .inr ⟨p, hd.2, .inl ⟨hsig, fun hh => absurd hh ‹_›⟩⟩
  | tryAcquire n p =>
    dsimp only at hacc
    split at hacc <;> cases hacc
    · exact ha.go hq hn hpc {}
    · rename_i hstate
      refine ha.go hq hn hpc { depends := ?_ }
      rintro _ ⟨rfl, hsig⟩
      obtain ⟨v, hv⟩ := hl.holder.mp (hl.state.resolve_left hstate)
      have hne : v ≠ θ := by
        rintro rfl
        rw [hpc] at hv
        cases hv
      refine .inr ⟨p, hd.2.1, .inl ⟨hsig, fun _ => ⟨v, ?_⟩⟩⟩
      rw [setPc_of_ne hne]
      generalize s.pc v = pcv at hv
      cases pcv <;> first | exact hv | cases hv
  | setHead n p =>
    cases hacc
    exact ha.go hq hn hpc { head := fun _ _ => .inr (.inr rfl) }
  | clearThread n p =>
    cases hacc
    refine ha.go hq hn hpc { thread := fun u x hu hx => Function.update_of_ne ?_ .. }
    rintro rfl
    exact hown u x hu hx rfl
  | clearPrev n p =>
    cases hacc
    refine ha.go hq hn hpc { served := ?_ }
    rintro _ ⟨⟩
    exact .inr hd
  | clearNext p =>
    cases hacc
    refine ha.go hq hn hpc { next := fun x y hxy => ?_ }
    change Function.update s.next p none x = some y at hxy
    rcases eq_or_ne x p with rfl | hx
    · rw [Function.update_self] at hxy
      cases hxy
    · rw [Function.update_of_ne hx] at hxy
      exact .inl hxy
  | predStatus n p =>
    dsimp only at hacc
    split at hacc
    · cases hacc
      refine ha.go hq hn hpc { depends := ?_ }
      rintro _ ⟨⟩
      have hcare := ha.cared θ n (by rw [hpc]; exact ⟨rfl, ‹_›⟩)
      exact hcare.imp_right fun hc => hc.setPc (by rw [hpc]; rintro _ ⟨⟩) (by rw [hpc]; rintro _ ⟨⟩)
    · split at hacc <;> cases hacc
      · exact absurd ‹_› (hnc p)
      · exact ha.go hq hn hpc {}
  | signal n p ws =>
    dsimp only at hacc
    split at hacc <;> cases hacc
    · refine ha.go hq hn hpc { status := fun q => ?_ }
      rcases eq_or_ne q p with rfl | hne
      · exact .inr (.inl ⟨Function.update_self .., n, rfl, hd.1⟩)
      · exact .inl (Function.update_of_ne hne ..)
    · exact ha.go hq hn hpc {}
  | park n =>
    dsimp only at hacc
    split at hacc <;> cases hacc
    refine ha.go hq hn hpc { permit := fun u hu hp => ?_ }
    exact (Function.update_of_ne hu ..).trans hp
  | unlock =>
    cases hacc
    exact ha.go hq hn hpc { sees := fun _ _ _ _ _ => .inl trivial }
  | releaseHead =>
    dsimp only at hacc
    split at hacc <;> cases hacc
    · exact ha.go hq hn hpc { sees := fun x q hh => by cases hh.symm.trans ‹s.head = none› }
    · refine ha.go hq hn hpc { sees := fun x q hh _ _ => .inl ?_ }
      exact Option.some.inj ((Eq.symm ‹_›).trans hh)
  | releaseStatus h =>
    dsimp only at hacc
    split at hacc <;> cases hacc
    · exact ha.go hq hn hpc { sees := fun x q _ _ hsee => .inr hsee }
    · rename_i hzero
      refine ha.go hq hn hpc { sees := fun x q _ hsig hsee => ?_ }
      cases hsee
      exact absurd (by rw [hsig]; decide) hzero
  | unparkClear c m ws =>
    dsimp only at hacc
    split at hacc <;> cases hacc
    · refine ha.go hq hn hpc { status := fun q => ?_ }
      rcases eq_or_ne q m with rfl | hne
      · exact .inr (.inr ⟨Function.update_self .., fun _ _ => rfl⟩)
      · exact .inl (Function.update_of_ne hne ..)
    · exact ha.go hq hn hpc {}
  | unparkNext c m =>
    dsimp only at hacc
    split at hacc <;> cases hacc
    · exact ha.go hq hn hpc {}
    · rename_i y hy
      refine ha.go hq hn hpc { covers := fun u x q _ _ _ hw hprev hm => .inr ?_ }
      cases hm
      exact hq.eq_of_behind (ha.next m y hy) (hq.waits_behind hw hprev) (hnc y) hw.1
  | unparkNextStatus c m y =>
    dsimp only at hacc
    split at hacc <;> cases hacc
    · exact absurd ‹_› (hnc y)
    · exact ha.go hq hn hpc {}
  | unparkTail c m =>
    cases hacc
    refine ha.go hq hn hpc (.scan rfl id (by rintro _ ⟨⟩) fun x q hw hprev hm => ?_)
    cases hm
    have hb := hq.waits_behind hw hprev
    cases ht : s.tail with
    | none =>
      obtain ⟨-, h, hh, hlt⟩ := hw
      cases hh.symm.trans (hq.noTail ht x (Nat.zero_lt_of_lt hlt))
      exact absurd hlt (Nat.lt_irrefl _)
    | some t =>
      have hle : s.place x ≤ s.place t := Nat.le_of_not_lt fun hlt => hnc x ((hq.tail t ht).2 x hlt)
      have hne : t ≠ m := fun heq => Nat.not_lt_of_le (heq ▸ hle) hb.2.1
      rw [scan, if_neg hne]
      exact ⟨rfl, hle⟩
  | scanStatus c m t found =>
    cases hacc
    refine ha.go hq hn hpc { covers := fun u x q _ _ _ hw _ hm => .inr ⟨hm.1, ?_⟩ }
    rcases Nat.eq_or_lt_of_le hm.2 with heq | hlt
    · cases hq.inj x t hw.pos heq
      exact .inr ⟨rfl, if_pos (Int.not_lt.mp (hnc _))⟩
    · exact .inl hlt
  | scanPrev c m t found =>
    cases hacc
    refine ha.go hq hn hpc (.scan rfl id (by rintro _ ⟨⟩) fun x q hw hprev hm => ?_)
    obtain ⟨rfl, hlt | ⟨rfl, rfl⟩⟩ := hm
    · have hb := hq.waits_behind hw hprev
      obtain ⟨-, h, hh, hlt₀⟩ := hw
      obtain ⟨y, hy⟩ := Option.ne_none_iff_exists'.mp (hq.linked h t hh (Nat.lt_trans hlt₀ hlt))
      have hyt := hq.prev t y (Nat.zero_lt_of_lt hlt) hy
      have hle : s.place x ≤ s.place y := Nat.le_of_not_lt fun hyx => hnc x (hyt.2.2 x hyx hlt)
      have hne : y ≠ m := fun heq => Nat.not_lt_of_le (heq ▸ hle) hb.2.1
      rw [hy, scan, if_neg hne]
      exact ⟨rfl, hle⟩
    · rw [hprev, scan, if_pos rfl]
      rfl
  | unparkThread c m y =>
    cases hacc
    exact ha.go hq hn hpc { covers := fun _ _ _ _ _ _ _ _ hm => .inr (congrArg s.thread hm) }
  | unpark c m thread =>
    obtain rfl : c = false := hcalm
    cases hacc
    cases thread with
    | none =>
      refine ha.go hq hn hpc { covers := fun u x q _ hx hfree _ _ hm => ?_ }
      cases Eq.trans hm (ha.mine u x hx hfree)
    | some v =>
      refine ha.go hq hn hpc { permit := fun u _ hp => ?_, covers := fun u x q _ hx hfree _ _ hm => .inl ?_ }
      · change Function.update s.permit v true u = true
        rcases eq_or_ne u v with rfl | hne
        · exact Function.update_self ..
        · exact (Function.update_of_ne hne ..).trans hp
      · cases Eq.trans hm (ha.mine u x hx hfree)
        exact Function.update_self ..
  | _ =>
    -- an access of a thread that has not given up, and nothing to care for
    first
      | (cases hcalm; done)
      | (dsimp only at hacc
         repeat' split at hacc
         all_goals cases hacc
         all_goals exact ha.go hq hn hpc {})

structure Untouched (s s' : Sync Θ ν) : Prop where
  status : ∀ q (R : Prop), s'.waitStatus q = s.waitStatus q ∨ s'.waitStatus q = 0 ∧ (0 < s.place q → R)
  next : ∀ x y, s'.next x = some y → s.next x = some y
  thread : ∀ x, s.made x = true → s'.thread x = s.thread x

theorem untouched_newNode (hq : s.Queued) (hn : s.made n = false) (thread : Option Θ) :
    s.Untouched (s.newNode n thread) := by
  refine ⟨fun q R => ?_, fun x y hxy => ?_, fun x hx => Function.update_of_ne ?_ ..⟩
  · rcases eq_or_ne q n with rfl | hne
    · refine .inr ⟨Function.update_self .., fun hpos => ?_⟩
      exact absurd (hq.fresh_of_not_made hn).1 (Nat.ne_of_gt hpos)
    · exact .inl (Function.update_of_ne hne ..)
  · change Function.update s.next n none x = some y at hxy
    rcases eq_or_ne x n with rfl | hne
    · rw [Function.update_self] at hxy
      cases hxy
    · rwa [Function.update_of_ne hne] at hxy
  · rintro rfl
    exact Bool.false_ne_true (hn.symm.trans hx)

theorem Awake.step (ha : s.Awake) (hq : s.Queued) (hl : s.Locked) (hstep : s.step e = some s')
    (he : ∀ θ, e ≠ .giveUp θ) : s'.Awake := by
  have hn := hq.step_next hl hstep
  cases e with
  | access θ => exact ha.access hq hl hstep
  | giveUp θ => exact absurd rfl (he θ)
  | acquire θ n =>
    simp only [Sync.step, acquire] at hstep
    split at hstep <;> (try split at hstep) <;> (try split at hstep) <;> cases hstep
    all_goals rename_i hpc hmade _
    · exact ha.go hq hn hpc {}
    · obtain ⟨hstatus, hnext, hthread⟩ := untouched_newNode hq (Bool.eq_false_iff.mpr hmade) (some θ)
      refine ha.go hq hn hpc {
        status := fun q => (hstatus q _).imp_right .inr
        next := fun x y hxy => .inl (hnext x y hxy)
        thread := fun u x _ hx => hthread x (hq.own u x hx)
        mine := fun x hx _ => .inr ?_ }
      cases hx
      exact Function.update_self ..
  | tryLock θ =>
    simp only [Sync.step, tryLock] at hstep
    split at hstep <;> (try split at hstep) <;> cases hstep
    · exact ha.go hq hn ‹_› {}
    · exact ha
  | release θ =>
    simp only [Sync.step, release] at hstep
    split at hstep <;> (try split at hstep) <;> cases hstep
    all_goals rename_i hpc hstate
    · exact absurd (hstate.symm.trans (hl.holder.mpr ⟨θ, congrArg SyncPc.holds hpc⟩)) (by decide)
    · exact ha.go hq hn hpc {}
  | wake θ =>
    simp only [Sync.step, wake] at hstep
    split at hstep <;> cases hstep
    exact ha.go hq hn ‹_› {}
  | newHead θ n =>
    simp only [Sync.step, newHead] at hstep
    split at hstep <;> (try split at hstep) <;> (try split at hstep) <;> cases hstep
    all_goals
      rename_i m hpc hmade hnone
      have hnew := Bool.eq_false_iff.mpr hmade
      obtain ⟨hstatus, hnext, hthread⟩ := untouched_newNode hq hnew none
      have hm := hthread m (hq.own θ m (by rw [hpc]; rfl))
    · refine ha.go hq hn hpc {
        status := fun q => (hstatus q _).imp_right .inr
        next := fun x y hxy => .inl (hnext x y hxy)
        thread := fun u x _ hx => hthread x (hq.own u x hx)
        mine := fun x hx _ => .inl ⟨hx, rfl, Option.some.inj hx ▸ hm⟩
        placed := fun x hx => ?_
        head := fun q _ => .inr (.inl hnone) }
      exact ((hq.place_last (hq.fresh_of_not_made hnew).1).placed x hx).symm.imp_right fun hx =>
        .inr (congrArg some hx.symm)
    · exact ha.go hq hn hpc {
        status := fun q => (hstatus q _).imp_right .inr
        next := fun x y hxy => .inl (hnext x y hxy)
        thread := fun u x _ hx => hthread x (hq.own u x hx)
        mine := fun x hx _ => .inl ⟨hx, rfl, Option.some.inj hx ▸ hm⟩ }

structure AllAwake (s : Sync Θ ν) : Prop extends Sound s where
  awake : s.Awake

theorem init_awake : (init : Sync Θ ν).Awake :=
  ⟨fun _ => rfl, fun _ => .inl rfl, by rintro _ _ ⟨⟩, by rintro _ _ ⟨⟩, by rintro _ _ ⟨⟩, by rintro _ _ ⟨⟩⟩

theorem Reached.awake (h : s.Reached false) : s.Awake := by
  obtain ⟨es, hrun⟩ := h
  refine (hrun.stateInvariant (I := AllAwake) ⟨⟨init_locked, init_queued⟩, init_awake⟩ ?_).awake
  rintro t e u ⟨⟨hl, hq⟩, ha⟩ ⟨hstep, he⟩
  obtain ⟨pc, hnext⟩ := hq.step_next hl hstep
  exact ⟨⟨hl.step hnext.goes hnext.lock, hq.next hl hnext⟩, ha.step hq hl hstep (he.resolve_left Bool.false_ne_true)⟩

/-- No wake-up is lost: while a thread is parked, another one has the lock, or is awake in a call, or has a
permit. -/
theorem no_lost_wakeup (h : s.Reached false) (θ : Θ) (hpark : s.pc θ = .park x) :
    ∃ u, s.pc u ≠ .idle ∧ ∀ y, s.pc u = .park y → s.permit u = true := by
  obtain ⟨-, hq⟩ := h.sound
  have ha := h.awake
  by_contra hno
  have hstuck : ∀ u, s.pc u = .idle ∨ ∃ y, s.pc u = .park y ∧ s.permit u = false := by
    intro u
    by_contra hu
    refine hno ⟨u, fun hidle => hu (.inl hidle), fun y hy => ?_⟩
    by_contra hp
    exact hu (.inr ⟨y, hy, Bool.eq_false_iff.mpr hp⟩)
  -- the first one that waits
  induction hk : s.place x using Nat.strongRecOn generalizing x θ with
  | ind k ih =>
    have hd : s.Depends x (s.pc θ) := by
      rw [hpark]
      rfl
    obtain ⟨-, hw, q, hprev⟩ := hd.waits hq
    have hb := hq.waits_behind hw hprev
    have hquiet : ∀ v, ¬(s.pc v).sees q ∧ ¬s.Covers q x (s.pc v) := fun v => by
      rcases hstuck v with hv | ⟨y, hv, -⟩ <;> rw [hv] <;> exact ⟨by rintro ⟨⟩, by rintro ⟨⟩⟩
    rcases ha.cared θ x hd with hp | ⟨q', hprev', ⟨-, hsee⟩ | ⟨v, hv⟩⟩
    · rcases hstuck θ with hidle | ⟨y, -, hnp⟩
      · cases hpark.symm.trans hidle
      · cases hp.symm.trans hnp
    · cases hprev.symm.trans hprev'
      obtain ⟨-, h₀, hh₀, hlt⟩ := hw
      rcases Nat.lt_trichotomy (s.place h₀) (s.place q) with hq₀ | heq | hq₀
      · obtain ⟨u, hu⟩ := ha.served h₀ q hh₀ hq₀
        rcases hstuck u with hidle | ⟨y, hy, -⟩
        · rw [hidle] at hu
          cases hu
        · rw [hy] at hu
          cases hu
          exact ih (s.place q) (hk ▸ hb.2.1) u hy rfl
      · cases hq.inj h₀ q (hq.head h₀ hh₀).1 heq
        obtain ⟨v, hv⟩ := hsee hh₀
        exact (hquiet v).1 hv
      · exact (hq.head h₀ hh₀).2 (hb.2.2 h₀ hq₀ hlt)
    · cases hprev.symm.trans hprev'
      exact (hquiet v).2 hv

theorem no_lost_wakeup_park :
    ∃ s : Sync Nat Nat, s.pc 1 = .park 11 ∧ ∃ u, s.pc u ≠ .idle ∧ ∀ y, s.pc u = .park y → s.permit u = true := by
  obtain ⟨s, h, hpc⟩ := reached_park false
  exact ⟨s, hpc, no_lost_wakeup h 1 hpc⟩

end Sync

end Rtfsc.Jdk
