import Mathlib
import Weft.Proofs.Symbol.Changes

/-!
# The hierarchy of classes and interfaces

In an acyclic hierarchy no class comes back to itself along its superclasses, and no interface along its bases. A
class can then be linked to one that does not derive from it, and an interface to one that does not extend it. The
walks through an acyclic hierarchy end by themselves: their bounds decide nothing.
-/

namespace Weft.Store

open Relation (ReflTransGen TransGen)

/-- The second class is the superclass of the first. -/
def Derives (s : Store) (c b : ClassId) : Prop := (s.cls c).super = some b

/-- The second interface is a base of the first. -/
def Extends (s : Store) (i b : InterfaceId) : Prop := b ∈ (s.iface i).bases

/-- No class reaches itself through superclasses, and no interface through bases. -/
structure Acyclic (s : Store) : Prop where
  cls : ∀ c, ¬TransGen s.Derives c c
  iface : ∀ i, ¬TransGen s.Extends i i

section Relations

variable {α : Type} {R R' : α → α → Prop} {a b x y : α}

/-- A path that may use one new edge is a path of the old ones, or goes to the edge and on from its end. -/
theorem reaches_or_through (h : ∀ u v, R' u v → R u v ∨ u = a ∧ v = b) (hxy : ReflTransGen R' x y) :
    ReflTransGen R x y ∨ ReflTransGen R x a := by
  induction hxy using ReflTransGen.head_induction_on with
  | refl => exact .inl .refl
  | head hstep _ ih =>
    rcases h _ _ hstep with hold | ⟨rfl, -⟩
    · exact ih.imp (.head hold) (.head hold)
    · exact .inr .refl

/-- A new edge closes no cycle if the old ones do not lead from its end to its start. -/
theorem acyclic_edge (h : ∀ u v, R' u v → R u v ∨ u = a ∧ v = b) (hac : ∀ x, ¬TransGen R x x)
    (hback : ¬ReflTransGen R b a) (x : α) : ¬TransGen R' x x := by
  intro hx
  -- a cycle of old edges is excluded, so it goes through the new one
  have hthrough : ReflTransGen R' x a ∧ ReflTransGen R' b x := by
    by_contra hno
    have hold : ∀ {y}, TransGen R' x y → ReflTransGen R' y x → TransGen R x y := by
      intro y hxy
      induction hxy with
      | single hstep =>
        intro hyx
        rcases h _ _ hstep with hold | ⟨rfl, rfl⟩
        · exact .single hold
        · exact absurd ⟨.refl, hyx⟩ hno
      | tail hxy hstep ih =>
        intro hyx
        rcases h _ _ hstep with hold | ⟨rfl, rfl⟩
        · exact (ih (.head hstep hyx)).tail hold
        · exact absurd ⟨hxy.to_reflTransGen, hyx⟩ hno
    exact hac x (hold hx .refl)
  have hba := hthrough.2.trans hthrough.1
  rcases reaches_or_through h hba with hold | hold <;> exact hback hold

end Relations

variable {s s' : Store}

/-! ## Superclasses -/

theorem chainOf_succ (n : Nat) (c : ClassId) :
    s.chainOf (n + 1) c = c :: (match (s.cls c).super with
      | some b => s.chainOf n b
      | none => []) := rfl

/-- A shorter walk is a part of a longer one. -/
theorem chainOf_take {n m : Nat} (h : n ≤ m) (c : ClassId) : s.chainOf n c = (s.chainOf m c).take n := by
  induction n generalizing m c with
  | zero => simp [chainOf]
  | succ n ih =>
    obtain ⟨m, rfl⟩ : ∃ k, m = k + 1 := ⟨m - 1, by omega⟩
    rw [chainOf_succ, chainOf_succ, List.take_succ_cons]
    congr 1
    split
    · exact ih (by omega) _
    · simp

/-- A walk meets only superclasses, and the classes that have one are followed by it. -/
theorem reaches_of_mem_chainOf {n : Nat} {c d : ClassId} (h : d ∈ s.chainOf n c) : ReflTransGen s.Derives c d := by
  induction n generalizing c with
  | zero => simp [chainOf] at h
  | succ n ih =>
    rw [chainOf_succ, List.mem_cons] at h
    rcases h with rfl | h
    · exact .refl
    · cases hb : (s.cls c).super with
      | none => simp [hb] at h
      | some b =>
        rw [hb] at h
        exact .head hb (ih h)

theorem chainOf_nodup (h : s.Acyclic) (n : Nat) (c : ClassId) : (s.chainOf n c).Nodup := by
  induction n generalizing c with
  | zero => simp [chainOf]
  | succ n ih =>
    rw [chainOf_succ, List.nodup_cons]
    cases hb : (s.cls c).super with
    | none => simp
    | some b => exact ⟨fun hmem => h.cls c (.head' hb (reaches_of_mem_chainOf hmem)), ih b⟩

/-- Every class of a walk but the last has a superclass, so the store holds it. -/
theorem index_lt_of_mem_dropLast {n : Nat} {c d : ClassId} (h : d ∈ (s.chainOf n c).dropLast) :
    d.index < s.classes.size := by
  induction n generalizing c with
  | zero => simp [chainOf] at h
  | succ n ih =>
    rw [chainOf_succ] at h
    cases hb : (s.cls c).super with
    | none => simp [hb] at h
    | some b =>
      rw [hb] at h
      cases hrest : s.chainOf n b with
      | nil => simp [hrest] at h
      | cons e rest =>
        simp only [hrest, List.dropLast_cons_cons, List.mem_cons] at h
        rcases h with rfl | h
        · by_contra hout
          have hnone : s.classes[d.index]? = none := Array.getElem?_eq_none_iff.mpr (by omega)
          rw [Store.cls, hnone] at hb
          exact absurd hb (by simp [show (default : Class).super = none from rfl])
        · exact ih (hrest ▸ h)

theorem length_chainOf_le (h : s.Acyclic) (n : Nat) (c : ClassId) :
    (s.chainOf n c).length ≤ s.classes.size + 1 := by
  have hnodup : ((s.chainOf n c).dropLast.map (·.index)).Nodup := by
    refine List.Nodup.map (fun a b hab => ?_) ((chainOf_nodup h n c).sublist (List.dropLast_sublist _))
    cases a
    cases b
    exact congrArg ClassId.mk hab
  have hsub : (s.chainOf n c).dropLast.map (·.index) ⊆ List.range s.classes.size := by
    intro k hk
    obtain ⟨d, hd, rfl⟩ := List.mem_map.mp hk
    exact List.mem_range.mpr (index_lt_of_mem_dropLast hd)
  have hle := (hnodup.subperm hsub).length_le
  simp only [List.length_map, List.length_dropLast, List.length_range] at hle
  omega

/-- A walk along superclasses ends before its bound. -/
theorem chainOf_eq_lineage (h : s.Acyclic) {n : Nat} (hn : s.classes.size < n) (c : ClassId) :
    s.chainOf n c = s.lineage c := by
  rw [lineage, chainOf_take (show s.classes.size + 1 ≤ n from hn) c,
    List.take_of_length_le (length_chainOf_le h n c)]

/-- The superclasses of a class are those of its superclass, after it. -/
theorem lineage_eq (h : s.Acyclic) (c : ClassId) :
    s.lineage c = c :: (match (s.cls c).super with
      | some b => s.lineage b
      | none => []) := by
  rw [← chainOf_eq_lineage h (show s.classes.size < s.classes.size + 2 by omega) c, chainOf_succ]
  rfl

theorem mem_lineage_iff (h : s.Acyclic) {c d : ClassId} : d ∈ s.lineage c ↔ ReflTransGen s.Derives c d := by
  constructor
  · exact reaches_of_mem_chainOf
  · intro hcd
    induction hcd using ReflTransGen.head_induction_on with
    | refl =>
      rw [lineage_eq h]
      exact List.mem_cons_self
    | head hstep _ ih =>
      rw [lineage_eq h, hstep]
      exact List.mem_cons_of_mem _ ih

theorem isSubclass_iff (h : s.Acyclic) {c d : ClassId} :
    s.isSubclass c d = true ↔ ReflTransGen s.Derives c d := by
  rw [isSubclass, decide_eq_true_eq, mem_lineage_iff h]

theorem not_hasCycle (h : s.Acyclic) (c : ClassId) : s.hasCycle c = false := by
  simp [hasCycle, lineage, chainOf_nodup h]

/-! ## Bases of interfaces -/

/-- How many interfaces of the store a visit has not met yet. -/
def unseen (s : Store) (seen : List InterfaceId) : Nat :=
  ((Finset.range s.interfaces.size).filter fun k => (⟨k⟩ : InterfaceId) ∉ seen).card

theorem unseen_mono {seen seen' : List InterfaceId} (h : seen ⊆ seen') : s.unseen seen' ≤ s.unseen seen := by
  apply Finset.card_le_card
  intro k hk
  simp only [Finset.mem_filter] at hk ⊢
  exact ⟨hk.1, fun hmem => hk.2 (h hmem)⟩

theorem unseen_lt {seen : List InterfaceId} {i : InterfaceId} (hi : i.index < s.interfaces.size) (hs : i ∉ seen) :
    s.unseen (seen ++ [i]) < s.unseen seen := by
  apply Finset.card_lt_card
  rw [Finset.ssubset_iff_of_subset]
  · refine ⟨i.index, ?_, ?_⟩
    · simpa using ⟨hi, hs⟩
    · simp
  · intro k hk
    simp only [Finset.mem_filter, List.mem_append, not_or] at hk ⊢
    exact ⟨hk.1, hk.2.1⟩

/-- An interface that is not in the store has no bases. -/
theorem bases_eq_nil {i : InterfaceId} (h : ¬i.index < s.interfaces.size) : (s.iface i).bases = [] := by
  have hnone : s.interfaces[i.index]? = none := Array.getElem?_eq_none_iff.mpr (by omega)
  rw [iface, hnone]
  rfl

/-- Whether a visit has met an interface and all that a newly met one extends. -/
structure Met (s : Store) (seen : List InterfaceId) (is : List InterfaceId) (met : List InterfaceId) : Prop where
  old : seen ⊆ met
  new : is ⊆ met
  closed : ∀ x ∈ met, x ∉ seen → (s.iface x).bases ⊆ met

theorem met_foldl {n : Nat} (hvisit : ∀ {seen i}, s.unseen seen < n → s.Met seen [i] (s.visit n seen i))
    {seen is : List InterfaceId} (hn : s.unseen seen < n) : s.Met seen is (is.foldl (s.visit n) seen) := by
  induction is generalizing seen with
  | nil => exact ⟨List.Subset.refl _, List.nil_subset _, fun x hx hs => absurd hx hs⟩
  | cons i is ih =>
    have hfirst := hvisit (i := i) hn
    have hrest := ih (Nat.lt_of_le_of_lt (unseen_mono hfirst.old) hn)
    refine ⟨List.Subset.trans hfirst.old hrest.old, ?_, ?_⟩
    · exact List.cons_subset.mpr ⟨hrest.old (hfirst.new List.mem_cons_self), hrest.new⟩
    · intro x hx hs
      by_cases hmid : x ∈ s.visit n seen i
      · exact List.Subset.trans (hfirst.closed x hmid hs) hrest.old
      · exact hrest.closed x hx hmid

/-- A visit whose bound is above the interfaces it has not met yet meets everything that it leads to. -/
theorem met_visit {n : Nat} {seen : List InterfaceId} {i : InterfaceId} (hn : s.unseen seen < n) :
    s.Met seen [i] (s.visit n seen i) := by
  induction n generalizing seen i with
  | zero => omega
  | succ n ih =>
    rw [visit]
    by_cases hi : i ∈ seen
    · rw [if_pos hi]
      exact ⟨List.Subset.refl _, by simpa using hi, fun x hx hs => absurd hx hs⟩
    · rw [if_neg hi]
      by_cases hin : i.index < s.interfaces.size
      · have hless := unseen_lt hin hi
        have hfold : s.Met (seen ++ [i]) (s.iface i).bases ((s.iface i).bases.foldl (s.visit n) (seen ++ [i])) :=
          met_foldl ih (by omega)
        refine ⟨List.Subset.trans (List.subset_append_left _ _) hfold.old, ?_, ?_⟩
        · exact List.Subset.trans (List.subset_append_right _ _) hfold.old
        · intro x hx hs
          by_cases hxi : x = i
          · subst hxi
            exact hfold.new
          · exact hfold.closed x hx (by simp [hs, hxi])
      · rw [bases_eq_nil hin, List.foldl_nil]
        refine ⟨List.subset_append_left _ _, List.subset_append_right _ _, ?_⟩
        intro x hx hs
        obtain rfl : x = i := by simpa [hs] using hx
        rw [bases_eq_nil hin]
        exact List.nil_subset _

theorem reaches_of_mem_visit {n : Nat} {seen : List InterfaceId} {i j : InterfaceId} (h : j ∈ s.visit n seen i) :
    j ∈ seen ∨ ReflTransGen s.Extends i j := by
  induction n generalizing seen i with
  | zero => exact .inl h
  | succ n ih =>
    rw [visit] at h
    split at h
    · exact .inl h
    · have hfold : ∀ (is : List InterfaceId), is ⊆ (s.iface i).bases → ∀ acc, j ∈ is.foldl (s.visit n) acc →
          j ∈ acc ∨ ReflTransGen s.Extends i j := by
        intro is
        induction is with
        | nil => exact fun _ acc hj => .inl hj
        | cons b is ihs =>
          intro hsub acc hj
          rw [List.cons_subset] at hsub
          rcases ihs hsub.2 _ hj with hj | hj
          · exact (ih hj).imp id (.head hsub.1)
          · exact .inr hj
      rcases hfold _ (List.Subset.refl _) _ h with hj | hj
      · rcases List.mem_append.mp hj with hj | hj
        · exact .inl hj
        · obtain rfl := List.mem_singleton.mp hj
          exact .inr .refl
      · exact .inr hj

theorem unseen_nil_lt {n : Nat} (hn : s.interfaces.size < n) : s.unseen [] < n := by
  have hle : s.unseen [] ≤ (Finset.range s.interfaces.size).card := Finset.card_le_card (Finset.filter_subset _ _)
  rw [Finset.card_range] at hle
  omega

/-- The interfaces met from an interface on are those it reaches through bases, on any hierarchy. -/
theorem mem_visit_iff {n : Nat} (hn : s.interfaces.size < n) {i j : InterfaceId} :
    j ∈ s.visit n [] i ↔ ReflTransGen s.Extends i j := by
  constructor
  · intro h
    exact (reaches_of_mem_visit h).resolve_left List.not_mem_nil
  · intro h
    have hmet := met_visit (i := i) (unseen_nil_lt hn)
    induction h with
    | refl => exact hmet.new List.mem_cons_self
    | tail _ hstep ih => exact hmet.closed _ ih List.not_mem_nil hstep

theorem extends_iff {i j : InterfaceId} : s.extends? i j = true ↔ ReflTransGen s.Extends i j := by
  rw [extends?, decide_eq_true_eq, extended, mem_visit_iff (Nat.lt_succ_self _)]

/-- A visit ends before its bound. -/
theorem visit_congr {n m : Nat} {seen : List InterfaceId} {i : InterfaceId} (hn : s.unseen seen < n)
    (hm : s.unseen seen < m) : s.visit n seen i = s.visit m seen i := by
  induction n generalizing m seen i with
  | zero => omega
  | succ n ih =>
    obtain ⟨m, rfl⟩ : ∃ k, m = k + 1 := ⟨m - 1, by omega⟩
    rw [visit, visit]
    split
    · rfl
    · next hi =>
      by_cases hin : i.index < s.interfaces.size
      · have hless := unseen_lt hin hi
        have hfold : ∀ (is acc : List InterfaceId), s.unseen acc < n → s.unseen acc < m →
            is.foldl (s.visit n) acc = is.foldl (s.visit m) acc := by
          intro is
          induction is with
          | nil => exact fun acc _ _ => rfl
          | cons b is ihs =>
            intro acc hacc hacc'
            have hgrow : s.unseen (s.visit n acc b) ≤ s.unseen acc := unseen_mono (met_visit hacc).old
            rw [List.foldl_cons, List.foldl_cons, ← ih hacc hacc']
            exact ihs _ (by omega) (by omega)
        exact hfold _ _ (by omega) (by omega)
      · rw [bases_eq_nil hin]
        rfl

theorem visit_eq_extended {n : Nat} (hn : s.interfaces.size < n) (i : InterfaceId) :
    s.visit n [] i = s.extended i := visit_congr (unseen_nil_lt hn) (unseen_nil_lt (Nat.lt_succ_self _))

/-! ## Links -/

/-- The same superclasses and bases. -/
structure SameBases (s s' : Store) : Prop where
  super : ∀ c, (s'.cls c).super = (s.cls c).super
  bases : ∀ i, (s'.iface i).bases = (s.iface i).bases

namespace SameBases

theorem refl (s : Store) : s.SameBases s := ⟨fun _ => rfl, fun _ => rfl⟩

theorem trans {s'' : Store} (h : s.SameBases s') (h' : s'.SameBases s'') : s.SameBases s'' :=
  ⟨fun c => (h'.super c).trans (h.super c), fun i => (h'.bases i).trans (h.bases i)⟩

theorem ofRelaid (h : s.Relaid s') : s.SameBases s' where
  super c := by
    obtain ⟨_, _, _, hc⟩ := h.cls c
    rw [hc]
  bases i := by rw [iface, iface, h.interfaces]

theorem derives_eq (h : s.SameBases s') : s'.Derives = s.Derives := by
  funext c b
  rw [Derives, Derives, h.super]

theorem extends_eq (h : s.SameBases s') : s'.Extends = s.Extends := by
  funext i b
  rw [Extends, Extends, h.bases]

theorem chainOf (h : s.SameBases s') (n : Nat) (c : ClassId) : s'.chainOf n c = s.chainOf n c := by
  induction n generalizing c with
  | zero => rfl
  | succ n ih =>
    rw [chainOf_succ, chainOf_succ, h.super]
    cases (s.cls c).super with
    | none => rfl
    | some b => exact congrArg _ (ih b)

theorem acyclic (h : s.SameBases s') (hs : s.Acyclic) : s'.Acyclic where
  cls := by
    rw [h.derives_eq]
    exact hs.cls
  iface := by
    rw [h.extends_eq]
    exact hs.iface

end SameBases

/-- A class may be linked to one that does not derive from it. -/
theorem Acyclic.linkClass (h : s.Acyclic) {c base : ClassId} (hback : s.isSubclass base c = false) :
    (updateClass c ({ · with super := some base }) s).2.Acyclic where
  cls := by
    refine acyclic_edge (a := c) (b := base) ?_ h.cls ?_
    · intro u v huv
      rw [Derives, cls_updateClass] at huv
      split at huv
      · next hcu =>
        obtain ⟨rfl, -⟩ := hcu
        exact .inr ⟨rfl, (Option.some.inj huv).symm⟩
      · exact .inl huv
    · rw [← isSubclass_iff h, hback]
      exact Bool.false_ne_true
  iface := h.iface

/-- An interface may be linked to one that does not extend it. -/
theorem Acyclic.linkInterface (h : s.Acyclic) {i base : InterfaceId} (hback : s.extends? base i = false) :
    (updateInterface i (fun x => { x with bases := x.bases ++ [base] }) s).2.Acyclic where
  cls := h.cls
  iface := by
    refine acyclic_edge (a := i) (b := base) ?_ h.iface ?_
    · intro u v huv
      rw [Extends, iface_updateInterface] at huv
      split at huv
      · next hiu =>
        obtain ⟨rfl, -⟩ := hiu
        rcases List.mem_append.mp huv with hold | hnew
        · exact .inl hold
        · exact .inr ⟨rfl, List.mem_singleton.mp hnew⟩
      · exact .inl huv
    · rw [← extends_iff, hback]
      exact Bool.false_ne_true

/-! ## Layouts -/

theorem Relaid.lineage (h : s.Relaid s') (c : ClassId) : s'.lineage c = s.lineage c := by
  rw [Store.lineage, Store.lineage, h.classCount, (SameBases.ofRelaid h).chainOf]

/-- A class marked as laid out, with no fields and methods yet. -/
def cleared (s : Store) (c : ClassId) : Store :=
  (updateClass c ({ · with laidOut := true, fields := [], methods := [] }) s).2

/-- The layout of a class before its own members: that of its superclass. -/
def inherited (n : Nat) (c : ClassId) (s : Store) : Store :=
  match (s.cls c).super with
  | some b =>
    if (s.cleared c).hasCycle b then s.cleared c
    else
      let laid := (layoutChain n b (s.cleared c)).2
      (updateClass c ({ · with fields := (laid.cls b).fields, methods := (laid.cls b).methods }) laid).2
  | none => s.cleared c

/-- A class is laid out after its superclass, member by member. -/
theorem layoutChain_succ (n : Nat) (c : ClassId) (s : Store) :
    layoutChain (n + 1) c s = if (s.cls c).laidOut then ((), s) else
      (((inherited n c s).cls c).members.symbols.forM (layoutMember c)) (inherited n c s) := by
  rw [layoutChain, get_bind_apply]
  by_cases hlaid : (s.cls c).laidOut = true
  · rw [if_pos hlaid, if_pos hlaid]
    rfl
  · rw [if_neg hlaid, if_neg hlaid, then_apply, inherited]
    cases (s.cls c).super with
    | none => rfl
    | some b =>
      simp only [get_bind_apply]
      change (if (!(s.cleared c).hasCycle b) = true then _ else _ : Symbols PUnit) (s.cleared c) = _
      cases (s.cleared c).hasCycle b <;> rfl

theorem relaid_cleared (s : Store) (c : ClassId) : s.Relaid (s.cleared c) :=
  relays_updateClass (fun _ => ⟨_, _, _, rfl⟩) s

/-- Laying a class out ends before its bound. -/
theorem layoutChain_congr {n m : Nat} {c : ClassId} (h : s.Acyclic) (hn : (s.lineage c).length ≤ n)
    (hm : (s.lineage c).length ≤ m) : layoutChain n c s = layoutChain m c s := by
  induction n generalizing m c s with
  | zero =>
    rw [lineage_eq h] at hn
    simp at hn
  | succ n ih =>
    have hpos : 0 < m := by
      rw [lineage_eq h] at hm
      simp only [List.length_cons] at hm
      omega
    obtain ⟨m, rfl⟩ : ∃ k, m = k + 1 := ⟨m - 1, by omega⟩
    have hinherited : inherited n c s = inherited m c s := by
      unfold inherited
      cases hb : (s.cls c).super with
      | none => rfl
      | some b =>
        have hlen : (s.lineage c).length = (s.lineage b).length + 1 := by rw [lineage_eq h, hb, List.length_cons]
        have hcleared := relaid_cleared s c
        have hrec : layoutChain n b (s.cleared c) = layoutChain m b (s.cleared c) := by
          apply ih ((SameBases.ofRelaid hcleared).acyclic h)
          · rw [hcleared.lineage]
            omega
          · rw [hcleared.lineage]
            omega
        simp only [hrec]
    rw [layoutChain_succ, layoutChain_succ, hinherited]

theorem layoutChain_eq_layout (h : s.Acyclic) {n : Nat} (hn : s.classes.size < n) (c : ClassId) :
    layoutChain n c s = layout c s := by
  have hle := length_chainOf_le h (s.classes.size + 1) c
  exact layoutChain_congr h (Nat.le_trans hle hn) hle

/-- Every walk through the hierarchy ends by itself, and finds what there is: no bound cuts it off. Members of a class,
subclasses, implemented interfaces and cycles are found along the lineage. -/
structure WalksEnd (s : Store) : Prop where
  chain : ∀ n, s.classes.size < n → ∀ c, s.chainOf n c = s.lineage c
  lineage : ∀ c, s.lineage c = c :: (match (s.cls c).super with
    | some b => s.lineage b
    | none => [])
  subclass : ∀ c d, s.isSubclass c d = true ↔ ReflTransGen s.Derives c d
  visit : ∀ n, s.interfaces.size < n → ∀ i, s.visit n [] i = s.extended i
  extends_iff : ∀ i j, s.extends? i j = true ↔ ReflTransGen s.Extends i j
  layout : ∀ n, s.classes.size < n → ∀ c, layoutChain n c s = layout c s

theorem Acyclic.walksEnd (h : s.Acyclic) : s.WalksEnd where
  chain _ hn c := chainOf_eq_lineage h hn c
  lineage c := lineage_eq h c
  subclass _ _ := isSubclass_iff h
  visit _ hn i := visit_eq_extended hn i
  extends_iff _ _ := Store.extends_iff
  layout _ hn c := layoutChain_eq_layout h hn c

/-- A hierarchy without bases is acyclic. -/
theorem acyclic_of_no_bases (hc : ∀ c, (s.cls c).super = none) (hi : ∀ i, (s.iface i).bases = []) : s.Acyclic where
  cls c hcc := by
    obtain ⟨b, hb, -⟩ := TransGen.head'_iff.mp hcc
    rw [Derives, hc] at hb
    cases hb
  iface i hii := by
    obtain ⟨b, hb, -⟩ := TransGen.head'_iff.mp hii
    rw [Extends, hi] at hb
    cases hb

end Weft.Store
