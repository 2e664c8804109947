import Rtfsc.Stl.RbTreeEqual
import Mathlib.Data.Nat.Dist

/-!
# Places for equivalent keys

`_M_insert_equal` puts a node behind the equivalent ones. `_M_insert_equal_` puts it as close to the hint
as its key allows: at the hint, at the upper bound or at the lower bound.
-/

namespace Rtfsc.Stl

open Rtfsc.Machine BinaryTree

variable {N K : Type} {key : N → K} {keyCompare : K → K → Bool}
variable {front behind before after : List N} {a n z : N} {p : RbPtr N} {k : K}

/-! ## Admissible places -/

/-- A place between the lower bound and the upper bound of a key. -/
structure Admissible (key : N → K) (keyCompare : K → K → Bool) (k : K) (front behind : List N) :
    Prop where
  front : ∀ n ∈ front, keyCompare k (key n) = false
  behind : ∀ n ∈ behind, keyCompare (key n) k = false

/-- A lesser key is in front of every admissible place. -/
theorem Admissible.length_lt (h : Admissible key keyCompare k front behind)
    (hseq : before ++ a :: after = front ++ behind) (ha : keyCompare (key a) k = true) :
    before.length < front.length := by
  rcases List.append_eq_append_iff.mp hseq with ⟨m, rfl, hbehind⟩ | ⟨m, hbefore, hbehind⟩
  · cases m with
    | nil =>
      have hnot := h.behind a (by simp [show behind = a :: after from hbehind.symm])
      rw [ha] at hnot
      cases hnot
    | cons b m => simp
  · have hnot := h.behind a (by simp [hbehind])
    rw [ha] at hnot
    cases hnot

/-- A greater key is behind every admissible place. -/
theorem Admissible.length_le (h : Admissible key keyCompare k front behind)
    (hseq : before ++ a :: after = front ++ behind) (ha : keyCompare k (key a) = true) :
    front.length ≤ before.length := by
  rcases List.append_eq_append_iff.mp hseq with ⟨m, hfront, hbehind⟩ | ⟨m, rfl, -⟩
  · cases m with
    | nil => simp [hfront]
    | cons b m =>
      obtain ⟨rfl, -⟩ := List.cons.inj hbehind
      have hnot := h.front a (by simp [hfront])
      rw [ha] at hnot
      cases hnot
  · simp

/-- No admissible place is closer to the one behind `before`. -/
def Closest (key : N → K) (keyCompare : K → K → Bool) (k : K) (before front behind : List N) : Prop :=
  ∀ front' behind', front ++ behind = front' ++ behind' →
    Admissible key keyCompare k front' behind' →
    Nat.dist front.length before.length ≤ Nat.dist front'.length before.length

theorem closest_here (before after : List N) : Closest key keyCompare k before before after := by
  intro front' behind' _ _
  rw [Nat.dist_self]
  exact Nat.zero_le _

/-- The upper bound, where it is not behind `before`. -/
theorem closest_upper (hbehind : ∀ n ∈ behind, keyCompare k (key n) = true)
    (hle : front.length ≤ before.length) : Closest key keyCompare k before front behind := by
  intro front' behind' hseq hadmissible
  have hup : front'.length ≤ front.length := by
    cases behind with
    | nil =>
      have hlen := congrArg List.length hseq
      simp only [List.length_append, List.length_nil] at hlen
      omega
    | cons a behind => exact hadmissible.length_le hseq (hbehind a List.mem_cons_self)
  unfold Nat.dist
  omega

/-- The lower bound, where it is not in front of `before`. -/
theorem closest_lower (hfront : ∀ n ∈ front, keyCompare (key n) k = true)
    (hle : before.length ≤ front.length) : Closest key keyCompare k before front behind := by
  intro front' behind' hseq hadmissible
  have hlow : front.length ≤ front'.length := by
    rcases List.eq_nil_or_concat' front with rfl | ⟨m, a, rfl⟩
    · exact Nat.zero_le _
    · rw [← List.append_cons] at hseq
      rw [List.length_append]
      exact hadmissible.length_lt hseq (hfront a (by simp))
  unfold Nat.dist
  omega

section Order

variable (horder : IsStrictWeakOrder K fun a b => keyCompare a b = true)

include horder

theorem Thirds.admissibleLower {lesser equal greater : List N}
    (h : Thirds key keyCompare k lesser equal greater) :
    Admissible key keyCompare k lesser (equal ++ greater) where
  front n hn := keyCompare_asymm horder (h.lesser n hn)
  behind n hn := by simpa using (h.lowerParts horder).behind n hn

theorem Thirds.admissibleUpper {lesser equal greater : List N}
    (h : Thirds key keyCompare k lesser equal greater) :
    Admissible key keyCompare k (lesser ++ equal) greater where
  front := (h.upperParts horder).front
  behind n hn := keyCompare_asymm horder (h.greater n hn)

/-- In front of a key that is not greater there is none. -/
theorem not_greater_front (hsorted : Sorted key keyCompare (front ++ a :: behind))
    (ha : keyCompare k (key a) = false) : ∀ n ∈ front ++ [a], keyCompare k (key n) = false := by
  intro n hn
  rcases List.mem_append.mp hn with hn | hn
  · by_contra hkn
    have hna := (List.pairwise_append.mp hsorted).2.2 n hn a List.mem_cons_self
    rcases keyCompare_or horder (Bool.not_eq_false _ ▸ hkn) (key a) with hlt | hlt
    · rw [ha] at hlt
      cases hlt
    · rw [hna] at hlt
      cases hlt
  · rwa [List.mem_singleton.mp hn]

/-- Behind a key that is not lesser there is none. -/
theorem not_lesser_behind (hsorted : Sorted key keyCompare (front ++ a :: behind))
    (ha : keyCompare (key a) k = false) : ∀ n ∈ a :: behind, keyCompare (key n) k = false := by
  intro n hn
  rcases List.mem_cons.mp hn with rfl | hn
  · exact ha
  · by_contra hnk
    have han := (List.pairwise_cons.mp (List.pairwise_append.mp hsorted).2.1).1 n hn
    rcases keyCompare_or horder (Bool.not_eq_false _ ▸ hnk) (key a) with hlt | hlt
    · rw [han] at hlt
      cases hlt
    · rw [ha] at hlt
      cases hlt

/-- In front of a lesser key all are lesser. -/
theorem lesser_front (hsorted : Sorted key keyCompare (front ++ a :: behind))
    (ha : keyCompare (key a) k = true) : ∀ n ∈ front ++ [a], keyCompare (key n) k = true := by
  intro n hn
  rcases List.mem_append.mp hn with hn | hn
  · have hna := (List.pairwise_append.mp hsorted).2.2 n hn a List.mem_cons_self
    exact (keyCompare_or horder ha (key n)).resolve_left (by simp [hna])
  · rwa [List.mem_singleton.mp hn]

omit horder in
/-- At an admissible place the sequence stays sorted. -/
theorem Admissible.sorted (h : Admissible key keyCompare (key z) front behind)
    (hsorted : Sorted key keyCompare (front ++ behind)) :
    Sorted key keyCompare (front ++ z :: behind) := by
  obtain ⟨hfront, hbehind, hapart⟩ := List.pairwise_append.mp hsorted
  refine List.pairwise_append.mpr ⟨hfront, List.pairwise_cons.mpr ⟨h.behind, hbehind⟩, ?_⟩
  intro n hn m hm
  rcases List.mem_cons.mp hm with rfl | hm
  · exact h.front n hn
  · exact hapart n hn m hm

end Order

/-! ## The positions -/

section Positions

variable [DecidableEq N] {ext : RbExternals N} {t : RbTree N}
  (horder : IsStrictWeakOrder K fun a b => keyCompare a b = true)
  (hlinked : t.Linked) (hsorted : Sorted key keyCompare (inorder t.root))

omit [DecidableEq N] in
theorem node_ne_null (n : N) : RbPtr.node n ≠ .null := nofun

omit [DecidableEq N] in
theorem insertsLeft_null {y : RbPtr N} (hy : y ≠ .null) (k : K) :
    insertsLeft key keyCompare k .null y = side (fun n => keyCompare k (key n)) y := by
  cases y with
  | null => exact absurd rfl hy
  | header => rfl
  | node n => rfl

omit [DecidableEq N] in
theorem lowersLeft_eq (y : RbPtr N) (k : K) :
    lowersLeft key keyCompare k y = side (fun n => !keyCompare (key n) k) y := by
  cases y with
  | null => rfl
  | header => rfl
  | node n => rfl

include horder hlinked hsorted

/-- The upper bound. -/
theorem getInsertEqualPos_slot (k : K) :
    ∃ p front behind, getInsertEqualPos key keyCompare t k = (.null, p) ∧ p ≠ .null ∧
      Slot t.root (insertsLeft key keyCompare k .null p) p front behind ∧
      Admissible key keyCompare k front behind ∧ ∀ n ∈ behind, keyCompare k (key n) = true := by
  obtain ⟨lesser, equal, greater, hsplit, hthirds⟩ := exists_thirds horder hsorted k
  rw [← List.append_assoc] at hsplit
  obtain ⟨hslot, hne⟩ := descend_slot hlinked.nodup (hthirds.upperParts horder) hsplit
  refine ⟨_, _, _, rfl, hne, ?_, hthirds.admissibleUpper horder, hthirds.greater⟩
  rwa [insertsLeft_null hne]

/-- The lower bound. -/
theorem insertEqualLower_slot (k : K) :
    ∃ front behind, ∃ y, y = descend (fun n => !keyCompare (key n) k) t.root .header ∧
      Slot t.root (lowersLeft key keyCompare k y) y front behind ∧
      Admissible key keyCompare k front behind ∧ ∀ n ∈ front, keyCompare (key n) k = true := by
  obtain ⟨lesser, equal, greater, hsplit, hthirds⟩ := exists_thirds horder hsorted k
  obtain ⟨hslot, -⟩ := descend_slot hlinked.nodup (hthirds.lowerParts horder) hsplit
  refine ⟨_, _, _, rfl, ?_, hthirds.admissibleLower horder, hthirds.lesser⟩
  rwa [lowersLeft_eq]

omit horder hlinked hsorted in
/-- What a hint leads to: a vacant slot at the closest admissible place, or the answer that all of these are
behind the hint. -/
inductive Place (key : N → K) (keyCompare : K → K → Bool) (t : BinaryTree N) (k : K) (before : List N) :
    RbPtr N → RbPtr N → Prop
  | slot {x p : RbPtr N} {front behind : List N} (ne_null : p ≠ .null)
      (slot : Slot t (insertsLeft key keyCompare k x p) p front behind)
      (admissible : Admissible key keyCompare k front behind)
      (closest : Closest key keyCompare k before front behind) :
      Place key keyCompare t k before x p
  | lower (behind : ∀ front behind, inorder t = front ++ behind →
      Admissible key keyCompare k front behind → before.length ≤ front.length) :
      Place key keyCompare t k before .null .null

/-- The search leads to the upper bound, where that is not behind the hint. -/
theorem getInsertEqualPos_place
    (hle : ∀ front behind, inorder t.root = front ++ behind →
      Admissible key keyCompare k front behind → front.length ≤ before.length) :
    ∃ x p, getInsertEqualPos key keyCompare t k = (x, p) ∧
      Place key keyCompare t.root k before x p := by
  obtain ⟨p, front, behind, hpos, hne, hslot, hadmissible, hgreater⟩ :=
    getInsertEqualPos_slot horder hlinked hsorted k
  exact ⟨.null, p, hpos, .slot hne hslot hadmissible
    (closest_upper hgreater (hle front behind hslot.split hadmissible))⟩

variable (hext : ext.Documented)

include hext

omit hext in
theorem place_end :
    ∃ x p, getInsertHintEqualPos ext key keyCompare t .header k = some (x, p) ∧
      Place key keyCompare t.root k (inorder t.root) x p := by
  have hle : ∀ front behind, inorder t.root = front ++ behind →
      Admissible key keyCompare k front behind → front.length ≤ (inorder t.root).length :=
    fun front behind hsplit _ => by simp [hsplit]
  obtain ⟨x, p, hpos, hplace⟩ := getInsertEqualPos_place horder hlinked hsorted hle
  rcases List.eq_nil_or_concat' (inorder t.root) with hnil | ⟨m, r, hlast⟩
  · have hcount : t.nodeCount = 0 := by rw [hlinked.nodeCount, hnil]; rfl
    exact ⟨x, p, by simp [getInsertHintEqualPos, hcount, hpos], hplace⟩
  · have hcount : 0 < t.nodeCount := by rw [hlinked.nodeCount, hlast]; simp
    have hrightmost : t.rightmost = .node r := by rw [hlinked.rightmost, hlast]; simp [firstPtr]
    by_cases hkr : keyCompare k (key r) = true
    · exact ⟨x, p, by simp [getInsertHintEqualPos, hcount, hrightmost, RbPtr.node?, hkr, hpos], hplace⟩
    · rw [Bool.not_eq_true] at hkr
      refine ⟨.null, .node r, ?_, ?_⟩
      · simp [getInsertHintEqualPos, hcount, hrightmost, RbPtr.node?, hkr]
      · have hslot := Slot.right hlinked.nodup hlast (rightOf_last hlinked.nodup hlast)
        have hadmissible : Admissible key keyCompare k (m ++ [r]) [] :=
          ⟨not_greater_front horder (hlast ▸ hsorted) hkr, List.forall_mem_nil _⟩
        have hside : insertsLeft key keyCompare k .null (.node r) = false := hkr
        rw [hlast]
        exact .slot (node_ne_null _) (hside ▸ hslot) hadmissible (closest_here _ _)

/-- The hint is not lesser: the slot between it and the node before, or the upper bound. -/
theorem place_before {pos : N} {rest : List N} (hsplit : inorder t.root = before ++ pos :: rest)
    (hpos : keyCompare (key pos) k = false) :
    ∃ x p, getInsertHintEqualPos ext key keyCompare t (.node pos) k = some (x, p) ∧
      Place key keyCompare t.root k before x p := by
  have hbehind := not_lesser_behind horder (hsplit ▸ hsorted) hpos
  rcases List.eq_nil_or_concat' before with rfl | ⟨m, b, rfl⟩
  · have hleftmost : t.leftmost = .node pos := by rw [hlinked.leftmost, hsplit]; rfl
    refine ⟨.node pos, .node pos, by simp [getInsertHintEqualPos, hpos, hleftmost], ?_⟩
    exact .slot (node_ne_null _) (.left hlinked.nodup hsplit (leftOf_head hlinked.nodup hsplit))
      ⟨List.forall_mem_nil _, hbehind⟩ (closest_here _ _)
  · have hpair : inorder t.root = m ++ b :: pos :: rest := by rw [hsplit, ← List.append_cons]
    have hne : .node pos ≠ t.leftmost := by
      rw [hlinked.leftmost, hsplit]
      exact (firstPtr_ne (hsplit ▸ hlinked.nodup) (by simp)).symm
    have hbefore := hext.decrement t m b pos rest hlinked.nodup hpair
    by_cases hkb : keyCompare k (key b) = true
    · have hle : ∀ front behind, inorder t.root = front ++ behind →
          Admissible key keyCompare k front behind → front.length ≤ (m ++ [b]).length := by
        intro front behind hfront hadmissible
        rw [List.length_append]
        exact Nat.le_add_right_of_le (hadmissible.length_le (hpair.symm.trans hfront) hkb)
      obtain ⟨x, p, hsearch, hplace⟩ := getInsertEqualPos_place horder hlinked hsorted hle
      refine ⟨x, p, ?_, hplace⟩
      simp [getInsertHintEqualPos, hpos, hne, hbefore, RbPtr.node?, hkb, hsearch]
    · rw [Bool.not_eq_true] at hkb
      have hfront := not_greater_front horder (hpair ▸ hsorted) hkb
      by_cases hright : rightOf b t.root = some .nil
      · refine ⟨.null, .node b, ?_, ?_⟩
        · simp [getInsertHintEqualPos, hpos, hne, hbefore, RbPtr.node?, hkb, hright]
        · have hslot := Slot.right hlinked.nodup hpair hright
          have hside : insertsLeft key keyCompare k .null (.node b) = false := hkb
          exact .slot (node_ne_null _) (hside ▸ hslot) ⟨hfront, hbehind⟩ (closest_here _ _)
      · refine ⟨.node pos, .node pos, ?_, ?_⟩
        · simp [getInsertHintEqualPos, hpos, hne, hbefore, RbPtr.node?, hkb, hright]
        · have hleft := (vacant_between hlinked.nodup hpair).resolve_left hright
          exact .slot (node_ne_null _) (.left hlinked.nodup hsplit hleft) ⟨hfront, hbehind⟩ (closest_here _ _)

/-- The hint is lesser: the slot between it and the node after, or the lower bound. -/
theorem place_after {pos : N} {rest : List N} (hsplit : inorder t.root = before ++ pos :: rest)
    (hpos : keyCompare (key pos) k = true) :
    ∃ x p, getInsertHintEqualPos ext key keyCompare t (.node pos) k = some (x, p) ∧
      Place key keyCompare t.root k before x p := by
  have hside : insertsLeft key keyCompare k .null (.node pos) = false := keyCompare_asymm horder hpos
  have hfront := lesser_front horder (hsplit ▸ hsorted) hpos
  have hfront' : ∀ n ∈ before ++ [pos], keyCompare k (key n) = false := fun n hn =>
    keyCompare_asymm horder (hfront n hn)
  have hclosest {behind : List N} : Closest key keyCompare k before (before ++ [pos]) behind :=
    closest_lower hfront (by simp)
  cases rest with
  | nil =>
    have hrightmost : t.rightmost = .node pos := by rw [hlinked.rightmost, hsplit]; simp [firstPtr]
    refine ⟨.null, .node pos, by simp [getInsertHintEqualPos, hpos, hrightmost], ?_⟩
    have hslot := Slot.right hlinked.nodup hsplit (rightOf_last hlinked.nodup hsplit)
    have hadmissible : Admissible key keyCompare k (before ++ [pos]) [] := ⟨hfront', List.forall_mem_nil _⟩
    exact .slot (node_ne_null _) (hside ▸ hslot) hadmissible hclosest
  | cons a rest =>
    have hne : .node pos ≠ t.rightmost := by
      rw [hlinked.rightmost, hsplit]
      exact (lastPtr_ne (hsplit ▸ hlinked.nodup) (by simp)).symm
    have hafter := hext.increment t before pos a rest hlinked.nodup hsplit
    by_cases hak : keyCompare (key a) k = true
    · refine ⟨.null, .null, ?_, .lower fun front behind hfront hadmissible => ?_⟩
      · simp [getInsertHintEqualPos, hpos, hne, hafter, RbPtr.node?, hak]
      · exact Nat.le_of_lt (hadmissible.length_lt (hsplit.symm.trans hfront) hpos)
    · rw [Bool.not_eq_true] at hak
      have hpair : inorder t.root = (before ++ [pos]) ++ a :: rest := by
        rw [hsplit, ← List.append_cons]
      have hbehind := not_lesser_behind horder (hpair ▸ hsorted) hak
      by_cases hright : rightOf pos t.root = some .nil
      · refine ⟨.null, .node pos, ?_, ?_⟩
        · simp [getInsertHintEqualPos, hpos, hne, hafter, RbPtr.node?, hak, hright]
        · have hslot := Slot.right hlinked.nodup hsplit hright
          exact .slot (node_ne_null _) (hside ▸ hslot) ⟨hfront', hbehind⟩ hclosest
      · refine ⟨.node a, .node a, ?_, ?_⟩
        · simp [getInsertHintEqualPos, hpos, hne, hafter, RbPtr.node?, hak, hright]
        · have hleft := (vacant_between hlinked.nodup hsplit).resolve_left hright
          exact .slot (node_ne_null _) (.left hlinked.nodup hpair hleft) ⟨hfront', hbehind⟩ hclosest

/-- Every hint leads to the closest admissible place. -/
theorem getInsertHintEqualPos_place (hsplit : inorder t.root = before ++ after) (k : K) :
    ∃ x p, getInsertHintEqualPos ext key keyCompare t (firstPtr after) k = some (x, p) ∧
      Place key keyCompare t.root k before x p := by
  cases after with
  | nil =>
    rw [List.append_nil] at hsplit
    exact hsplit ▸ place_end horder hlinked hsorted
  | cons pos rest =>
    by_cases hpos : keyCompare (key pos) k = true
    · exact place_after horder hlinked hsorted hext hsplit hpos
    · exact place_before horder hlinked hsorted hext hsplit (Bool.eq_false_iff.mpr hpos)

end Positions

/-! ## The insertions -/

section Insert

variable [DecidableEq N] {ext : RbExternals N} {t : RbTree N}

theorem inorder_insertNode (hext : ext.Documented) {x : RbPtr N} (hz : z ∉ inorder t.root)
    (h : Slot t.root (insertsLeft key keyCompare (key z) x p) p front behind) :
    inorder (insertNode ext key keyCompare t x p z).root = front ++ z :: behind :=
  (hext.insertAndRebalance _ z p t hz h.vacant).trans (h.inorder_linkAt z)

theorem inorder_insertLower (hext : ext.Documented) (hz : z ∉ inorder t.root)
    (h : Slot t.root (lowersLeft key keyCompare (key z) p) p front behind) :
    inorder (insertLower ext key keyCompare t p z).root = front ++ z :: behind :=
  (hext.insertAndRebalance _ z p t hz h.vacant).trans (h.inorder_linkAt z)

/-- A new node comes to the admissible place that is closest to the hint, at a vacant slot; without a hint
it comes to the upper bound. -/
theorem insertEqualHint_closest (horder : IsStrictWeakOrder K fun a b => keyCompare a b = true)
    (hext : ext.Documented) (hlinked : t.Linked) (hsorted : Sorted key keyCompare (inorder t.root))
    (hsplit : inorder t.root = before ++ after) (hz : z ∉ inorder t.root) :
    (∃ t' front behind,
      insertEqualHint ext key keyCompare t (firstPtr after) z = some (t', .node z) ∧
      t'.nodeCount = t.nodeCount + 1 ∧ inorder t.root = front ++ behind ∧
      inorder t'.root = front ++ z :: behind ∧ Sorted key keyCompare (inorder t'.root) ∧
      Admissible key keyCompare (key z) front behind ∧
      Closest key keyCompare (key z) before front behind) ∧
    (∃ x p, getInsertHintEqualPos ext key keyCompare t (firstPtr after) (key z) = some (x, p) ∧
      (p ≠ .null → Vacant (insertsLeft key keyCompare (key z) x p) t.root p) ∧
      (p = .null → ∃ y, y = descend (fun n => !keyCompare (key n) (key z)) t.root .header ∧
        Vacant (lowersLeft key keyCompare (key z) y) t.root y)) ∧
    ∃ t' front behind, insertEqual ext key keyCompare t z = (t', .node z) ∧
      t'.nodeCount = t.nodeCount + 1 ∧ inorder t.root = front ++ behind ∧
      inorder t'.root = front ++ z :: behind ∧ Sorted key keyCompare (inorder t'.root) ∧
      (∀ n ∈ front, keyCompare (key z) (key n) = false) ∧
      ∀ n ∈ behind, keyCompare (key z) (key n) = true := by
  obtain ⟨x, p, hpos, hplace⟩ :=
    getInsertHintEqualPos_place horder hlinked hsorted hext hsplit (key z)
  obtain ⟨lfront, lbehind, y, hy, hlower, hladmissible, hlesser⟩ :=
    insertEqualLower_slot horder hlinked hsorted (key z)
  refine ⟨?_, ⟨x, p, hpos, fun hp => ?_, fun _ => ⟨y, hy, hlower.vacant⟩⟩, ?_⟩
  · cases hplace with
    | slot ne_null slot admissible closest =>
      have hinorder := inorder_insertNode hext hz slot
      have hkept := hinorder ▸ admissible.sorted (slot.split ▸ hsorted)
      exact ⟨_, _, _, by simp [insertEqualHint, hpos, ne_null], rfl, slot.split, hinorder, hkept,
        admissible, closest⟩
    | lower behind =>
      have hinorder := inorder_insertLower hext hz hlower
      have hkept := hinorder ▸ hladmissible.sorted (hlower.split ▸ hsorted)
      have hclosest : Closest key keyCompare (key z) before lfront lbehind :=
        closest_lower hlesser (behind lfront lbehind hlower.split hladmissible)
      exact ⟨_, _, _, by simp [insertEqualHint, hpos, insertEqualLower, ← hy], rfl, hlower.split,
        hinorder, hkept, hladmissible, hclosest⟩
  · cases hplace with
    | slot ne_null slot _ _ => exact slot.vacant
    | lower _ => exact absurd rfl hp
  · obtain ⟨p, front, behind, hsearch, -, hslot, hadmissible, hgreater⟩ :=
      getInsertEqualPos_slot horder hlinked hsorted (key z)
    have hinorder := inorder_insertNode hext hz hslot
    have hkept := hinorder ▸ hadmissible.sorted (hslot.split ▸ hsorted)
    exact ⟨_, front, behind, by simp [insertEqual, hsearch], rfl, hslot.split, hinorder, hkept,
      hadmissible.front, hgreater⟩

end Insert

/-- Another 2 with the 1 as its hint goes in front of the other ones. -/
theorem insertEqualHint_closest_fourNodes :
    ∃ t' front behind,
      insertEqualHint (unbalanced Nat) (· / 10) (fun a b => decide (a < b)) fourNodes (.node 10) 22 =
        some (t', .node 22) ∧ inorder t'.root = front ++ 22 :: behind ∧
      Closest (· / 10) (fun a b => decide (a < b)) 2 [] front behind := by
  have hlinked : fourNodes.Linked := ⟨by decide, rfl, rfl, rfl⟩
  have hsorted : Sorted (· / 10) (fun a b => decide (a < b)) (inorder fourNodes.root) := by
    unfold Sorted
    decide
  have hsplit : inorder fourNodes.root = [] ++ [10, 20, 21, 30] := rfl
  obtain ⟨⟨t', front, behind, hcall, -, -, hinorder, -, -, hclosest⟩, -⟩ :=
    insertEqualHint_closest (z := 22) nat_order unbalanced_documented hlinked hsorted hsplit (by decide)
  exact ⟨t', front, behind, hcall, hinorder, hclosest⟩

end Rtfsc.Stl
