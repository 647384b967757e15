import Weft.Proofs.Analysis.ClassLayouts
import Weft.Proofs.Renaming.Types

/-!
# Bases of renamed symbols

A class or an interface that is accepted has the bases that are written for it. Under other identities, and in any order of the
files, it gets the same bases: the hierarchy that is made so far is a part of the accepted one, so no cycle is found in it.
-/

namespace Weft

/-! ## Parts of a hierarchy -/

/-- What the first store says of the bases of renamed symbols is a part of what the second says of the symbols. -/
structure Store.Within (σ : Renaming) (t f : Store) : Prop where
  super : ∀ c b, (t.cls (σ.cls c)).super = some b → ∃ b₀, (f.cls c).super = some b₀ ∧ b = σ.cls b₀
  bases : ∀ i b, b ∈ (t.iface (σ.iface i)).bases → ∃ b₀ ∈ (f.iface i).bases, b = σ.iface b₀

namespace Store.Within

open Relation (ReflTransGen TransGen)

variable {σ : Renaming} {t f : Store}

theorem reaches_class (h : t.Within σ f) {c : ClassId} {b : ClassId} (hb : ReflTransGen t.Derives (σ.cls c) b) :
    ∃ b₀, ReflTransGen f.Derives c b₀ ∧ b = σ.cls b₀ := by
  induction hb with
  | refl => exact ⟨c, .refl, rfl⟩
  | tail _ hlast ih =>
    obtain ⟨b₀, hb₀, rfl⟩ := ih
    obtain ⟨d, hd, rfl⟩ := h.super b₀ _ hlast
    exact ⟨d, hb₀.tail hd, rfl⟩

theorem reaches_interface (h : t.Within σ f) {i : InterfaceId} {b : InterfaceId} (hb : ReflTransGen t.Extends (σ.iface i) b) :
    ∃ b₀, ReflTransGen f.Extends i b₀ ∧ b = σ.iface b₀ := by
  induction hb with
  | refl => exact ⟨i, .refl, rfl⟩
  | tail _ hlast ih =>
    obtain ⟨b₀, hb₀, rfl⟩ := ih
    obtain ⟨d, hd, rfl⟩ := h.bases b₀ _ hlast
    exact ⟨d, hb₀.tail hd, rfl⟩

/-- A class that will get a superclass is not found among those above that superclass. -/
theorem isSubclass_eq_false (h : t.Within σ f) (hf : f.Acyclic) {c b : ClassId} (hb : (f.cls c).super = some b) :
    t.isSubclass (σ.cls b) (σ.cls c) = false := by
  rw [Bool.eq_false_iff]
  intro hsub
  obtain ⟨d, hd, heq⟩ := h.reaches_class (reaches_of_mem_chainOf (of_decide_eq_true hsub))
  obtain rfl := σ.cls.injective heq
  exact hf.cls c (TransGen.head' hb hd)

/-- An interface that will get a base is not found among those that the base extends. -/
theorem extends?_eq_false (h : t.Within σ f) (hf : f.Acyclic) {i b : InterfaceId} (hb : b ∈ (f.iface i).bases) :
    t.extends? (σ.iface b) (σ.iface i) = false := by
  rw [Bool.eq_false_iff]
  intro hsub
  obtain ⟨d, hd, heq⟩ := h.reaches_interface (extends_iff.mp hsub)
  obtain rfl := σ.iface.injective heq
  exact hf.iface i (TransGen.head' hb hd)

end Store.Within

instance {own : SymKind → Nat → Prop} : Std.Refl (Store.Revised own) := ⟨.refl⟩

instance {own : SymKind → Nat → Prop} : IsTrans Store (Store.Revised own) := ⟨fun _ _ _ => .trans⟩

namespace Analysis

variable {σ : Renaming} {s s' t f : Store}

/-! ## Written bases -/

/-- A type that is written in a file stands for a type, in the symbols of a store or in ones that differ in types and bases only. -/
def Written (s : Store) (pl : Place) (te : Tree.TypeExpr) (t : Ty) : Prop :=
  ∃ n, s.Revised (fun _ _ => True) n ∧ Accepts (resolveType false te) pl ⟨n, []⟩ (some t) ⟨n, []⟩

/-- The same place under other identities. -/
def Place.rename (σ : Renaming) (pl : Place) : Place := ⟨pl.file, pl.scope.rename σ⟩

theorem Carries.accepts {α β : Type} {r : α → β} {m : Analysis α} {m' : Analysis β} (h : Carries σ s s' r m m') {pl : Place}
    {a : α} {st : State} (ha : Accepts m pl ⟨s, []⟩ a st) :
    ∃ bs, st = ⟨s, bs⟩ ∧ Accepts m' (pl.rename σ) ⟨s', []⟩ (r a) ⟨s', bs.map (Body.rename σ)⟩ := by
  obtain ⟨x, bs, ds, hrun, hrun'⟩ := h pl.file pl.scope []
  rw [Accepts] at ha
  obtain ⟨hx, rfl⟩ := Reported.mk.inj (hrun.symm.trans ha)
  obtain ⟨rfl, rfl⟩ := Prod.mk.inj hx
  exact ⟨bs, rfl, hrun'⟩

/-- A written type stands for the renamed type under other identities. -/
theorem Written.rename {pl : Place} {te : Tree.TypeExpr} {ty : Ty} (h : Written s pl te ty) (hn : s.Named σ t) :
    Accepts (resolveType false te) (pl.rename σ) ⟨t, []⟩ (some (ty.rename σ)) ⟨t, []⟩ := by
  obtain ⟨n, hr, ha⟩ := h
  obtain ⟨bs, hbs, haccepts⟩ := (carries_resolveType (hr.named_left hn) false te).accepts ha
  obtain rfl : bs = [] := (State.mk.inj hbs).2.symm
  exact haccepts

/-! ## Accepted bases -/

/-- Types that are accepted as the bases of a class from a position on, after bases that were accepted before: a class only in
the first place, and interfaces, each once. -/
inductive ClassBases (c : ClassId) : Nat → Option ClassId × List InterfaceId → List Ty → Option ClassId × List InterfaceId → Prop
  | nil {i : Nat} {a : Option ClassId × List InterfaceId} : ClassBases c i a [] a
  | cls {b : ClassId} {super : Option ClassId} {is : List InterfaceId} {ts : List Ty} {r : Option ClassId × List InterfaceId}
      (other : b ≠ c) (rest : ClassBases c 1 (some b, is) ts r) : ClassBases c 0 (super, is) (.cls b :: ts) r
  | iface {i : Nat} {j : InterfaceId} {super : Option ClassId} {is : List InterfaceId} {ts : List Ty}
      {r : Option ClassId × List InterfaceId} (new : j ∉ is) (rest : ClassBases c (i + 1) (super, is ++ [j]) ts r) :
      ClassBases c i (super, is) (.iface j :: ts) r

/-- Types that are accepted as the bases of an interface, after bases that were accepted before: other interfaces, each once. -/
inductive InterfaceBases (i : InterfaceId) : List InterfaceId → List Ty → List InterfaceId → Prop
  | nil {is : List InterfaceId} : InterfaceBases i is [] is
  | cons {j : InterfaceId} {is : List InterfaceId} {ts : List Ty} {r : List InterfaceId}
      (other : j ≠ i) (new : j ∉ is) (rest : InterfaceBases i (is ++ [j]) ts r) : InterfaceBases i is (.iface j :: ts) r

theorem ClassBases.super_of_pos {c : ClassId} {i : Nat} {a r : Option ClassId × List InterfaceId} {ts : List Ty}
    (h : ClassBases c i a ts r) (hi : 0 < i) : r.1 = a.1 := by
  induction h with
  | nil => rfl
  | cls => cases hi
  | iface _ _ ih => exact ih (Nat.succ_pos _)

theorem InterfaceBases.subset {i : InterfaceId} {is : List InterfaceId} {ts : List Ty} {r : List InterfaceId}
    (h : InterfaceBases i is ts r) : is ⊆ r := by
  induction h with
  | nil => exact fun _ => id
  | cons _ _ _ ih => exact fun x hx => ih (List.mem_append_left _ hx)

section Links

variable {pl : Place} {st st' : State} {c : ClassId} {i : Nat} {b : Tree.TypeExpr}

/-- A base of a class is accepted when it is written right, and fits the bases before it. -/
theorem accepts_linkClassBase {x : PUnit} : Accepts (linkClassBase c i b) pl ⟨s, []⟩ x st' ↔
    ∃ ty, Accepts (resolveType false b) pl ⟨s, []⟩ (some ty) ⟨s, []⟩ ∧
      ((∃ base, ty = .cls base ∧ base ≠ c ∧ i = 0 ∧ s.isSubclass base c = false ∧
          st' = ⟨(Store.updateClass c ({ · with super := some base }) s).2, []⟩) ∨
        ∃ base, ty = .iface base ∧ base ∉ (s.cls c).implements ∧
          st' = ⟨(Store.updateClass c (fun x => { x with implements := x.implements ++ [base] }) s).2, []⟩) := by
  rw [linkClassBase, accepts_bind]
  constructor
  · rintro ⟨r, st₁, hr, h⟩
    obtain ⟨rfl, ty, rfl, -⟩ := accepts_resolveType b hr
    refine ⟨ty, hr, ?_⟩
    rw [accepts_store_bind] at h
    cases ty with
    | cls base =>
      dsimp only at h
      split at h
      · exact absurd h accepts_report
      · split at h
        · exact absurd h accepts_report
        · split at h
          · exact absurd h accepts_report
          · rename_i hne hi hsub
            exact .inl ⟨base, rfl, hne, not_not.mp hi, Bool.eq_false_iff.mpr hsub, (accepts_symbols.mp h).2⟩
    | iface base =>
      dsimp only at h
      split at h
      · exact absurd h accepts_report
      · rename_i hnew
        exact .inr ⟨base, rfl, hnew, (accepts_symbols.mp h).2⟩
    | _ => exact absurd h accepts_report
  · rintro ⟨ty, hr, h⟩
    refine ⟨some ty, _, hr, ?_⟩
    rw [accepts_store_bind]
    obtain ⟨base, rfl, hne, rfl, hsub, rfl⟩ | ⟨base, rfl, hnew, rfl⟩ := h
    · dsimp only
      rw [if_neg hne, if_neg (not_not.mpr rfl), if_neg (Bool.eq_false_iff.mp hsub)]
      exact accepts_symbols.mpr ⟨rfl, rfl⟩
    · dsimp only
      rw [if_neg hnew]
      exact accepts_symbols.mpr ⟨rfl, rfl⟩

/-- A base of an interface is accepted when it is written right, and fits the bases before it. -/
theorem accepts_linkInterfaceBase {j : InterfaceId} {x : PUnit} : Accepts (linkInterfaceBase j b) pl ⟨s, []⟩ x st' ↔
    ∃ base, Accepts (resolveType false b) pl ⟨s, []⟩ (some (.iface base)) ⟨s, []⟩ ∧ base ≠ j ∧
      s.extends? base j = false ∧ base ∉ (s.iface j).bases ∧
        st' = ⟨(Store.updateInterface j (fun x => { x with bases := x.bases ++ [base] }) s).2, []⟩ := by
  rw [linkInterfaceBase, accepts_bind]
  constructor
  · rintro ⟨r, st₁, hr, h⟩
    obtain ⟨rfl, ty, rfl, -⟩ := accepts_resolveType b hr
    rw [accepts_store_bind] at h
    cases ty with
    | iface base =>
      dsimp only at h
      split at h
      · exact absurd h accepts_report
      · split at h
        · exact absurd h accepts_report
        · split at h
          · exact absurd h accepts_report
          · rename_i hne hext hnew
            exact ⟨base, hr, hne, Bool.eq_false_iff.mpr hext, hnew, (accepts_symbols.mp h).2⟩
    | _ => exact absurd h accepts_report
  · rintro ⟨base, hr, hne, hext, hnew, rfl⟩
    refine ⟨some (.iface base), _, hr, ?_⟩
    rw [accepts_store_bind]
    dsimp only
    rw [if_neg hne, if_neg (Bool.eq_false_iff.mp hext), if_neg hnew]
    exact accepts_symbols.mpr ⟨rfl, rfl⟩

/-- What a link leaves of a class. -/
theorem linked_class {f : Class → Class} (hf : ∀ x, ∃ super implements, f x = { x with super, implements })
    (hs : s.Revised (fun _ _ => True) s') (hc : c.index < s'.classes.size) :
    s.Revised (fun _ _ => True) (Store.updateClass c f s').2 ∧ c.index < (Store.updateClass c f s').2.classes.size ∧
      (Store.updateClass c f s').2.cls c = f (s'.cls c) :=
  ⟨hs.trans (Store.revised_updateClass trivial hf), hc.trans_eq (Store.count_updateClass .cls).symm, by
    rw [Store.cls_updateClass, if_pos ⟨rfl, hc⟩]⟩

/-- What a link leaves of an interface. -/
theorem linked_interface {j : InterfaceId} {f : Interface → Interface} (hf : ∀ x, ∃ bases, f x = { x with bases })
    (hs : s.Revised (fun _ _ => True) s') (hj : j.index < s'.interfaces.size) :
    s.Revised (fun _ _ => True) (Store.updateInterface j f s').2 ∧
      j.index < (Store.updateInterface j f s').2.interfaces.size ∧
      (Store.updateInterface j f s').2.iface j = f (s'.iface j) :=
  ⟨hs.trans (Store.revised_updateInterface trivial hf), hj.trans_eq (Store.count_updateInterface .iface).symm, by
    rw [Store.iface_updateInterface, if_pos ⟨rfl, hj⟩]⟩

/-- The bases of a class that is accepted. -/
theorem accepts_classBases {bs : List Tree.TypeExpr} {x : PUnit} (hs : s.Revised (fun _ _ => True) s')
    (hc : c.index < s'.classes.size)
    (h : Accepts ((bs.zipIdx i).forM fun (b, i) => linkClassBase c i b) pl ⟨s', []⟩ x st') :
    ∃ ts t, st' = ⟨t, []⟩ ∧ List.Forall₂ (Written s pl) bs ts ∧
      ClassBases c i ((s'.cls c).super, (s'.cls c).implements) ts ((t.cls c).super, (t.cls c).implements) := by
  induction bs generalizing i s' with
  | nil =>
    obtain rfl := accepts_forM_nil.mp h
    exact ⟨[], s', rfl, .nil, .nil⟩
  | cons b bs ih =>
    rw [List.zipIdx_cons] at h
    obtain ⟨st₁, hfirst, hrest⟩ := accepts_forM_cons.mp h
    obtain ⟨ty, hty, hcases⟩ := accepts_linkClassBase.mp hfirst
    have hwritten : Written s pl b ty := ⟨s', hs, hty⟩
    obtain ⟨base, rfl, hne, rfl, -, rfl⟩ | ⟨base, rfl, hnew, rfl⟩ := hcases
    · obtain ⟨hs₁, hc₁, hcls⟩ := linked_class (c := c) (f := ({ · with super := some base })) (fun _ => ⟨_, _, rfl⟩) hs hc
      obtain ⟨ts, t, rfl, hall, hbases⟩ := ih hs₁ hc₁ hrest
      rw [hcls] at hbases
      exact ⟨_ :: ts, t, rfl, .cons hwritten hall, .cls hne hbases⟩
    · obtain ⟨hs₁, hc₁, hcls⟩ := linked_class (c := c) (f := fun x => { x with implements := x.implements ++ [base] })
        (fun _ => ⟨_, _, rfl⟩) hs hc
      obtain ⟨ts, t, rfl, hall, hbases⟩ := ih hs₁ hc₁ hrest
      rw [hcls] at hbases
      exact ⟨_ :: ts, t, rfl, .cons hwritten hall, .iface hnew hbases⟩

/-- The bases of an interface that is accepted. -/
theorem accepts_interfaceBases {bs : List Tree.TypeExpr} {j : InterfaceId} {x : PUnit} (hs : s.Revised (fun _ _ => True) s')
    (hj : j.index < s'.interfaces.size) (h : Accepts (bs.forM (linkInterfaceBase j)) pl ⟨s', []⟩ x st') :
    ∃ ts t, st' = ⟨t, []⟩ ∧ List.Forall₂ (Written s pl) bs ts ∧
      InterfaceBases j (s'.iface j).bases ts (t.iface j).bases := by
  induction bs generalizing s' with
  | nil =>
    obtain rfl := accepts_forM_nil.mp h
    exact ⟨[], s', rfl, .nil, .nil⟩
  | cons b bs ih =>
    obtain ⟨st₁, hfirst, hrest⟩ := accepts_forM_cons.mp h
    obtain ⟨base, hty, hne, -, hnew, rfl⟩ := accepts_linkInterfaceBase.mp hfirst
    obtain ⟨hs₁, hj₁, hiface⟩ := linked_interface (j := j) (f := fun x => { x with bases := x.bases ++ [base] })
      (fun _ => ⟨_, rfl⟩) hs hj
    obtain ⟨ts, t, rfl, hall, hbases⟩ := ih hs₁ hj₁ hrest
    rw [hiface] at hbases
    exact ⟨_ :: ts, t, rfl, .cons ⟨s', hs, hty⟩ hall, .cons hne hnew hbases⟩

/-! ### Under other identities -/

theorem within_updateClass {g : Class → Class} (hw : t.Within σ f)
    (h : ∀ b, (g (t.cls (σ.cls c))).super = some b → ∃ b₀, (f.cls c).super = some b₀ ∧ b = σ.cls b₀) :
    (Store.updateClass (σ.cls c) g t).2.Within σ f where
  super d b hb := by
    rw [Store.cls_updateClass] at hb
    split at hb
    · next heq =>
      obtain rfl := σ.cls.injective heq.1
      exact h b hb
    · exact hw.super d b hb
  bases := hw.bases

theorem within_updateInterface {j : InterfaceId} {g : Interface → Interface} (hw : t.Within σ f)
    (h : ∀ b ∈ (g (t.iface (σ.iface j))).bases, ∃ b₀ ∈ (f.iface j).bases, b = σ.iface b₀) :
    (Store.updateInterface (σ.iface j) g t).2.Within σ f where
  super := hw.super
  bases k b hb := by
    rw [Store.iface_updateInterface] at hb
    split at hb
    · next heq =>
      obtain rfl := σ.iface.injective heq.1
      exact h b hb
    · exact hw.bases k b hb

/-- The bases of an accepted class are accepted under other identities. -/
theorem classBases_rename {bs : List Tree.TypeExpr} {ts : List Ty} {a r : Option ClassId × List InterfaceId}
    (hbases : ClassBases c i a ts r) (hall : List.Forall₂ (Written s pl) bs ts) (hf : f.Acyclic)
    (hr : r.1 = (f.cls c).super) (hn : s.Named σ t) (hw : t.Within σ f) (hc : (σ.cls c).index < t.classes.size)
    (hsuper : (t.cls (σ.cls c)).super = a.1.map σ.cls) (himplements : (t.cls (σ.cls c)).implements = a.2.map σ.iface) :
    ∃ t', Accepts ((bs.zipIdx i).forM fun (b, i) => linkClassBase (σ.cls c) i b) (pl.rename σ) ⟨t, []⟩ () ⟨t', []⟩ ∧
      t'.Within σ f ∧ (t'.cls (σ.cls c)).super = r.1.map σ.cls ∧
      (t'.cls (σ.cls c)).implements = r.2.map σ.iface := by
  induction hbases generalizing bs t with
  | nil =>
    cases hall
    exact ⟨t, accepts_forM_nil.mpr rfl, hw, hsuper, himplements⟩
  | @cls b super is ts r other rest ih =>
    cases hall with
    | @cons te _ bs _ hfirst hrest =>
      have hfinal : (f.cls c).super = some b := hr.symm.trans (rest.super_of_pos Nat.zero_lt_one)
      obtain ⟨hrevised, hc₁, hcls⟩ := linked_class (c := σ.cls c) (f := ({ · with super := some (σ.cls b) }))
        (fun _ => ⟨_, _, rfl⟩) (.refl t) hc
      have hw₁ : (Store.updateClass (σ.cls c) ({ · with super := some (σ.cls b) }) t).2.Within σ f :=
        within_updateClass hw fun d hd => ⟨b, hfinal, (Option.some.inj hd).symm⟩
      obtain ⟨t', haccepts, hresult⟩ := ih hrest hr (hrevised.named_right hn) hw₁ hc₁ (by rw [hcls]; rfl)
        (by rw [hcls]; exact himplements)
      refine ⟨t', accepts_forM_cons.mpr ⟨_, accepts_linkClassBase.mpr ⟨_, hfirst.rename hn, .inl ?_⟩, haccepts⟩, hresult⟩
      exact ⟨σ.cls b, rfl, fun heq => other (σ.cls.injective heq), rfl, hw.isSubclass_eq_false hf hfinal, rfl⟩
  | @iface i j super is ts r new rest ih =>
    cases hall with
    | @cons te _ bs _ hfirst hrest =>
      obtain ⟨hrevised, hc₁, hcls⟩ := linked_class (c := σ.cls c)
        (f := fun x => { x with implements := x.implements ++ [σ.iface j] }) (fun _ => ⟨_, _, rfl⟩) (.refl t) hc
      have hw₁ : (Store.updateClass (σ.cls c) (fun x => { x with implements := x.implements ++ [σ.iface j] }) t).2.Within σ f :=
        within_updateClass hw fun d hd => hw.super c d hd
      obtain ⟨t', haccepts, hresult⟩ := ih hrest hr (hrevised.named_right hn) hw₁ hc₁ (by rw [hcls]; exact hsuper)
        (by rw [hcls, himplements]; simp)
      refine ⟨t', accepts_forM_cons.mpr ⟨_, accepts_linkClassBase.mpr ⟨_, hfirst.rename hn, .inr ?_⟩, haccepts⟩, hresult⟩
      refine ⟨σ.iface j, rfl, fun hmem => ?_, rfl⟩
      rw [himplements] at hmem
      exact new ((List.mem_map_of_injective σ.iface.injective).mp hmem)

/-- The bases of an accepted interface are accepted under other identities. -/
theorem interfaceBases_rename {bs : List Tree.TypeExpr} {ts : List Ty} {j : InterfaceId} {is r : List InterfaceId}
    (hbases : InterfaceBases j is ts r) (hall : List.Forall₂ (Written s pl) bs ts) (hf : f.Acyclic)
    (hr : r = (f.iface j).bases) (hn : s.Named σ t) (hw : t.Within σ f) (hj : (σ.iface j).index < t.interfaces.size)
    (hstart : (t.iface (σ.iface j)).bases = is.map σ.iface) :
    ∃ t', Accepts (bs.forM (linkInterfaceBase (σ.iface j))) (pl.rename σ) ⟨t, []⟩ () ⟨t', []⟩ ∧
      t'.Within σ f ∧ (t'.iface (σ.iface j)).bases = r.map σ.iface := by
  induction hbases generalizing bs t with
  | nil =>
    cases hall
    exact ⟨t, accepts_forM_nil.mpr rfl, hw, hstart⟩
  | @cons b is ts r other new rest ih =>
    cases hall with
    | @cons te _ bs _ hfirst hrest =>
      have hfinal : is ++ [b] ⊆ (f.iface j).bases := hr ▸ rest.subset
      have hbase : b ∈ (f.iface j).bases := hfinal (by simp)
      obtain ⟨hrevised, hj₁, hiface⟩ := linked_interface (j := σ.iface j)
        (f := fun x => { x with bases := x.bases ++ [σ.iface b] }) (fun _ => ⟨_, rfl⟩) (.refl t) hj
      have hw₁ : (Store.updateInterface (σ.iface j) (fun x => { x with bases := x.bases ++ [σ.iface b] }) t).2.Within σ f := by
        refine within_updateInterface hw fun d hd => ?_
        rcases List.mem_append.mp hd with hd | hd
        · exact hw.bases j d hd
        · exact ⟨b, hbase, List.mem_singleton.mp hd⟩
      obtain ⟨t', haccepts, hresult⟩ := ih hrest hr (hrevised.named_right hn) hw₁ hj₁ (by rw [hiface, hstart]; simp)
      refine ⟨t', accepts_forM_cons.mpr ⟨_, accepts_linkInterfaceBase.mpr ⟨σ.iface b, hfirst.rename hn, ?_⟩, haccepts⟩, hresult⟩
      refine ⟨fun heq => other (σ.iface.injective heq), hw.extends?_eq_false hf hbase, fun hmem => ?_, rfl⟩
      rw [hstart] at hmem
      exact new ((List.mem_map_of_injective σ.iface.injective).mp hmem)

end Links

/-! ## Declarations -/

/-- The class or the interface that a declaration declares. -/
def Item.Heads : Item → SymKind → Nat → Prop
  | .cls _ _ c _, k, n => k = .cls ∧ n = c.index
  | .iface _ _ i _, k, n => k = .iface ∧ n = i.index
  | _, _, _ => False

/-- A class or an interface has the bases that are written for it, and these are accepted. -/
def Item.Linked (s f : Store) (file : String) : Item → Prop
  | .cls sc d c _ => ∃ ts, List.Forall₂ (Written s ⟨file, sc⟩) d.bases ts ∧
      ClassBases c 0 ((s.cls c).super, (s.cls c).implements) ts ((f.cls c).super, (f.cls c).implements)
  | .iface sc d i _ => ∃ ts, List.Forall₂ (Written s ⟨file, sc⟩) d.bases ts ∧
    InterfaceBases i (s.iface i).bases ts (f.iface i).bases
  | _ => True

section Items

variable {own own' : SymKind → Nat → Prop} {i : Item} {items : List Item} {u v u' : FileUnit} {file : String} {x : PUnit}

theorem Item.Linked.revised (h : i.Linked s f file) (hr : f.Revised own t) (hdisjoint : ∀ k n, i.Heads k n → ¬own k n) :
    i.Linked s t file := by
  cases i with
  | cls sc d c ms =>
    have hc : ¬own .cls c.index := hdisjoint _ _ ⟨rfl, rfl⟩
    rw [Item.Linked, hr.super hc, hr.implements hc]
    exact h
  | iface sc d j ms =>
    have hj : ¬own .iface j.index := hdisjoint _ _ ⟨rfl, rfl⟩
    rw [Item.Linked, hr.bases hj]
    exact h
  | _ => trivial

theorem moves_linkOwnInterface {j : InterfaceId} (hj : own .iface j.index) {b : Tree.TypeExpr} :
    Moves (Store.Revised own) (linkInterfaceBase j b) := by
  refine (moves_resolveType b).bind fun t => moves_store.bind fun s => ?_
  split
  · exact moves_pure
  · split
    · exact moves_report
    · split
      · exact moves_report
      · split
        · exact moves_report
        · exact moves_symbols fun s => Store.revised_updateInterface hj fun _ => ⟨_, rfl⟩
  · exact moves_report

/-- The bases of a declaration are those of its class or interface. -/
theorem movesUnit_linkOwnItem (i : Item) (hi : ∀ k n, i.Heads k n → own k n) : MovesUnit (Store.Revised own) (linkItem i) := by
  unfold linkItem
  cases i with
  | cls sc d c ms =>
    refine movesUnit_attempt (moves_forM fun b _ => moves_classBase fun f hf s => ?_)
    exact Store.revised_updateClass (hi _ _ ⟨rfl, rfl⟩) hf
  | iface sc d j ms => exact movesUnit_attempt (moves_forM fun b _ => moves_linkOwnInterface (hi _ _ ⟨rfl, rfl⟩))
  | _ => exact movesUnit_pure

/-- A declaration that is accepted is linked to the bases that are written. -/
theorem linked_of_goes (h : Goes (linkItem i) u s' x u' t) (hs : s.Revised own s') (hown : ∀ k n, i.Heads k n → ¬own k n)
    (hroom : ∀ k n, i.Heads k n → n < s'.count k) : i.Linked s t u.file := by
  have hrevised : s.Revised (fun _ _ => True) s' := hs.mono fun _ _ _ => trivial
  cases i with
  | cls sc d c ms =>
    obtain ⟨-, -, st, haccepts, rfl⟩ := goes_attempt.mp h
    obtain ⟨ts, t, rfl, hall, hbases⟩ := accepts_classBases hrevised (hroom .cls c.index ⟨rfl, rfl⟩) haccepts
    have hc : ¬own .cls c.index := hown _ _ ⟨rfl, rfl⟩
    rw [hs.super hc, hs.implements hc] at hbases
    exact ⟨ts, hall, hbases⟩
  | iface sc d j ms =>
    obtain ⟨-, -, st, haccepts, rfl⟩ := goes_attempt.mp h
    obtain ⟨ts, t, rfl, hall, hbases⟩ := accepts_interfaceBases hrevised (hroom .iface j.index ⟨rfl, rfl⟩) haccepts
    rw [hs.bases (hown _ _ ⟨rfl, rfl⟩)] at hbases
    exact ⟨ts, hall, hbases⟩
  | _ => trivial

/-- A declaration is linked under other identities as it is without. -/
theorem goes_linkItem_rename (hl : i.Linked s f v.file) (hf : f.Acyclic) (hv : v.Clean) (hn : s.Named σ t) (hw : t.Within σ f)
    (hu : s.BasesAgree σ i.Heads t) (hroom : ∀ k n, i.Heads k n → σ.index k n < t.count k) :
    ∃ t', Goes (linkItem (i.rename σ)) v t () v t' ∧ t'.Within σ f ∧ f.BasesAgree σ i.Heads t' := by
  cases i with
  | cls sc d c ms =>
    obtain ⟨ts, hall, hbases⟩ := hl
    obtain ⟨t', haccepts, hw', hsuper, himplements⟩ := classBases_rename hbases hall hf rfl hn hw
      (hroom .cls c.index ⟨rfl, rfl⟩) (hu.super c ⟨rfl, rfl⟩) (hu.implements c ⟨rfl, rfl⟩)
    refine ⟨t', goes_attempt.mpr ⟨hv, rfl, _, haccepts, rfl⟩, hw', fun x hx => ?_, fun x hx => ?_, fun x hx => ?_⟩
    · obtain rfl : x = c := congrArg ClassId.mk hx.2
      exact hsuper
    · obtain rfl : x = c := congrArg ClassId.mk hx.2
      exact himplements
    · cases hx.1
  | iface sc d j ms =>
    obtain ⟨ts, hall, hbases⟩ := hl
    obtain ⟨t', haccepts, hw', hresult⟩ := interfaceBases_rename hbases hall hf rfl hn hw (hroom .iface j.index ⟨rfl, rfl⟩)
      (hu.bases j ⟨rfl, rfl⟩)
    refine ⟨t', goes_attempt.mpr ⟨hv, rfl, _, haccepts, rfl⟩, hw', fun x hx => ?_, fun x hx => ?_, fun x hx => ?_⟩
    · cases hx.1
    · cases hx.1
    · obtain rfl : x = j := congrArg InterfaceId.mk hx.2
      exact hresult
  | func => exact ⟨t, goes_pure.mpr ⟨hv, rfl, rfl, rfl⟩, hw, nofun, nofun, nofun⟩
  | global => exact ⟨t, goes_pure.mpr ⟨hv, rfl, rfl, rfl⟩, hw, nofun, nofun, nofun⟩

theorem Item.heads_rename (i : Item) {k : SymKind} {n : Nat} : (i.rename σ).Heads k n ↔ σ.image i.Heads k n := by
  cases i with
  | cls sc d c ms =>
    constructor
    · rintro ⟨rfl, rfl⟩
      exact ⟨c.index, ⟨rfl, rfl⟩, rfl⟩
    · rintro ⟨_, ⟨rfl, rfl⟩, rfl⟩
      exact ⟨rfl, rfl⟩
  | iface sc d j ms =>
    constructor
    · rintro ⟨rfl, rfl⟩
      exact ⟨j.index, ⟨rfl, rfl⟩, rfl⟩
    · rintro ⟨_, ⟨rfl, rfl⟩, rfl⟩
      exact ⟨rfl, rfl⟩
  | _ => exact ⟨nofun, nofun⟩

/-! ## Lists of declarations -/

/-- The classes and interfaces that declarations declare. -/
def headsOf (items : List Item) (k : SymKind) (n : Nat) : Prop := ∃ i ∈ items, i.Heads k n

/-- Declarations that declare different classes and interfaces. -/
def Item.Apart (i j : Item) : Prop := ∀ k n, i.Heads k n → ¬j.Heads k n

theorem movesUnit_linkItems (items : List Item) (h : ∀ k n, headsOf items k n → own k n) :
    MovesUnit (Store.Revised own) (items.forM linkItem) :=
  movesUnit_forM fun i hi => movesUnit_linkOwnItem i fun k n hn => h k n ⟨i, hi, hn⟩

theorem headsOf_append {js : List Item} {k : SymKind} {n : Nat} :
    headsOf (items ++ js) k n ↔ headsOf items k n ∨ headsOf js k n := by
  simp only [headsOf, List.mem_append, or_and_right, exists_or]

theorem headsOf_rename {k : SymKind} {n : Nat} (h : headsOf (items.map (Item.rename σ)) k n) : σ.image (headsOf items) k n := by
  obtain ⟨_, hmem, hn⟩ := h
  obtain ⟨i, hi, rfl⟩ := List.mem_map.mp hmem
  obtain ⟨m, hm, rfl⟩ := i.heads_rename.mp hn
  exact ⟨m, ⟨i, hi, hm⟩, rfl⟩

/-- Declarations that are accepted are linked to the bases that are written. -/
theorem linked_items_of_goes (h : Goes (items.forM linkItem) u s' x u' t) (hfresh : u.IsFresh)
    (hs : s.Revised own s') (hapart : items.Pairwise Item.Apart) (hown : ∀ k n, headsOf items k n → ¬own k n)
    (hroom : ∀ i ∈ items, ∀ k n, i.Heads k n → n < s'.count k) : ∀ i ∈ items, i.Linked s t u.file := by
  induction items generalizing s' own with
  | nil => nofun
  | cons i items ih =>
    obtain ⟨hi, hitems⟩ := List.pairwise_cons.mp hapart
    obtain ⟨u₁, s₁, hfirst, hrest⟩ := (goes_forM_cons tidy_linkItem).mp h
    obtain rfl := goes_linkItem_unit hfirst
    have hlinked := linked_of_goes hfirst hs (fun k n hn => hown k n ⟨i, List.mem_cons_self, hn⟩) (hroom i List.mem_cons_self)
    have hrevised : s'.Revised i.Heads s₁ := ((movesUnit_linkOwnItem i fun _ _ => id).goes hfresh hfirst).1
    have hafter : s₁.Revised (headsOf items) t := ((movesUnit_linkItems items fun _ _ => id).goes hfresh hrest).1
    intro j hj
    rcases List.mem_cons.mp hj with rfl | hj
    · exact hlinked.revised hafter fun k n hn ⟨j', hj', hn'⟩ => hi j' hj' k n hn hn'
    · refine ih hrest (hs.union hrevised) hitems
        (fun k n ⟨j, hj, hn⟩ hor => ?_) (fun j hj k n hn => ?_) j hj
      · exact hor.elim (hown k n ⟨j, List.mem_cons_of_mem _ hj, hn⟩) fun hn' => hi j hj k n hn' hn
      · rw [hrevised.count]
        exact hroom j (List.mem_cons_of_mem _ hj) k n hn

/-- Declarations are linked under other identities as they are without. -/
theorem goes_linkItems_rename (hl : ∀ i ∈ items, i.Linked s f v.file) (hf : f.Acyclic) (hv : v.Clean) (hfresh : v.IsFresh)
    (hn : s.Named σ t) (hw : t.Within σ f) (hapart : items.Pairwise Item.Apart)
    (hu : s.BasesAgree σ (headsOf items) t) (hroom : ∀ i ∈ items, ∀ k n, i.Heads k n → σ.index k n < t.count k) :
    ∃ t', Goes ((items.map (Item.rename σ)).forM linkItem) v t () v t' ∧ t'.Within σ f ∧ f.BasesAgree σ (headsOf items) t' := by
  induction items generalizing t with
  | nil =>
    refine ⟨t, goes_forM_nil.mpr ⟨hv, rfl, rfl⟩, hw, ?_, ?_, ?_⟩ <;> exact fun _ ⟨_, h, _⟩ => absurd h List.not_mem_nil
  | cons i items ih =>
    obtain ⟨hi, hitems⟩ := List.pairwise_cons.mp hapart
    obtain ⟨t₁, hfirst, hw₁, hagree⟩ := goes_linkItem_rename (hl i List.mem_cons_self) hf hv hn hw
      (hu.mono fun k n hn => ⟨i, List.mem_cons_self, hn⟩) (hroom i List.mem_cons_self)
    have hrevised : t.Revised (σ.image i.Heads) t₁ :=
      ((movesUnit_linkOwnItem (i.rename σ) fun _ _ h => i.heads_rename.mp h).goes hfresh hfirst).1
    obtain ⟨t', hrest, hw', hagree'⟩ := ih (fun j hj => hl j (List.mem_cons_of_mem _ hj)) (hrevised.named_right hn) hw₁ hitems
      ((hu.mono fun k n ⟨j, hj, hn⟩ => ⟨j, List.mem_cons_of_mem _ hj, hn⟩).right hrevised
        fun k n ⟨j, hj, hn⟩ hn' => hi j hj k n hn' hn) fun j hj k n hn => by
        rw [hrevised.count]
        exact hroom j (List.mem_cons_of_mem _ hj) k n hn
    have hafter : t₁.Revised (σ.image (headsOf items)) t' :=
      ((movesUnit_linkItems (items.map (Item.rename σ)) fun _ _ => headsOf_rename).goes hfresh hrest).1
    have hkept : f.BasesAgree σ i.Heads t' := hagree.right hafter fun k n hn ⟨j, hj, hn'⟩ => hi j hj k n hn hn'
    refine ⟨t', (goes_forM_cons tidy_linkItem).mpr ⟨v, t₁, hfirst, hrest⟩, hw', hkept.union hagree' fun k n ⟨j, hj, hn⟩ => ?_⟩
    rcases List.mem_cons.mp hj with rfl | hj
    · exact .inl hn
    · exact .inr ⟨j, hj, hn⟩

end Items

/-! ## Projects -/

section Projects

variable {p : Project} {u v u' : FileUnit} {us us' vs : List FileUnit} {iss : List (List Item)} {x : PUnit}

/-- A unit is linked when its declarations are. -/
theorem goes_bases (hv : Goes (v.items.forM linkItem) v s () v t) : Goes (runPhase p .bases) v s () v t := by
  refine ⟨hv.before, ?_, hv.after⟩
  have hrun := hv.result
  rcases hsrc : v.source with ⟨tree, items, imports⟩ | ⟨record, imports, pending⟩
  · rw [FileUnit.items_eq hsrc] at hrun
    have hphase : runPhase p .bases v s = (items.forM linkItem >>= fun _ =>
        modify ({ · with source := .fresh tree items imports }) : OnUnit PUnit) v s := by
      obtain ⟨file, module, diags, broken, source⟩ := v
      obtain rfl : source = _ := hsrc
      rfl
    rw [hphase]
    change (((), { (items.forM linkItem v s).1.2 with source := .fresh tree items imports }),
      (items.forM linkItem v s).2) = _
    rw [hrun, ← hsrc]
  · obtain ⟨file, module, diags, broken, source⟩ := v
    obtain rfl : source = _ := hsrc
    exact hrun

/-- Units are linked to the bases that are written, whatever has been linked before them. -/
theorem Sweep.linked_after (h : Sweep p .bases us s' us' t) (hfresh : ∀ u ∈ us, u.IsFresh) (hs : s.Revised own s')
    (hapart : (us.flatMap FileUnit.items).Pairwise Item.Apart)
    (hown : ∀ k n, headsOf (us.flatMap FileUnit.items) k n → ¬own k n)
    (hroom : ∀ i ∈ us.flatMap FileUnit.items, ∀ k n, i.Heads k n → n < s'.count k) :
    us' = us ∧ s'.Revised (headsOf (us.flatMap FileUnit.items)) t ∧ ∀ u ∈ us, ∀ i ∈ u.items, i.Linked s t u.file := by
  induction h generalizing own with
  | nil => exact ⟨rfl, .refl _, nofun⟩
  | @cons u u' us us' s' s₁ t head tail ih =>
    obtain ⟨tree, items, imports, hsrc⟩ := hfresh u List.mem_cons_self
    obtain ⟨rfl, hgoes⟩ := goes_bases_fresh hsrc head
    rw [List.flatMap_cons, FileUnit.items_eq hsrc] at hapart hown hroom ⊢
    obtain ⟨hitemsApart, hrest, hcross⟩ := List.pairwise_append.mp hapart
    have hlinked := linked_items_of_goes hgoes ⟨tree, items, imports, hsrc⟩ hs hitemsApart
      (fun k n hn => hown k n (headsOf_append.mpr (.inl hn))) fun i hi => hroom i (List.mem_append_left _ hi)
    have hrevised : s'.Revised (headsOf items) s₁ :=
      ((movesUnit_linkItems items fun _ _ => id).goes ⟨tree, items, imports, hsrc⟩ hgoes).1
    obtain ⟨rfl, hafter, hothers⟩ := ih (fun u hu => hfresh u (List.mem_cons_of_mem _ hu))
      (hs.union hrevised) hrest
      (fun k n hn hor => hor.elim (hown k n (headsOf_append.mpr (.inr hn))) fun ⟨j, hj, hn'⟩ =>
        let ⟨i, hi, hn⟩ := hn; hcross j hj i hi k n hn' hn)
      fun i hi k n hn => by
        rw [hrevised.count]
        exact hroom i (List.mem_append_right _ hi) k n hn
    refine ⟨rfl, (hrevised.mono fun k n hn => headsOf_append.mpr (.inl hn)).trans
      (hafter.mono fun k n hn => headsOf_append.mpr (.inr hn)), fun v hv i hi => ?_⟩
    rcases List.mem_cons.mp hv with rfl | hv
    · rw [FileUnit.items_eq hsrc] at hi
      exact (hlinked i hi).revised hafter fun k n hn ⟨j, hj, hn'⟩ => hcross i hi j hj k n hn hn'
    · exact hothers v hv i hi

theorem Sweep.linked (h : Sweep p .bases us s us' t) (hfresh : ∀ u ∈ us, u.IsFresh)
    (hapart : (us.flatMap FileUnit.items).Pairwise Item.Apart)
    (hroom : ∀ i ∈ us.flatMap FileUnit.items, ∀ k n, i.Heads k n → n < s.count k) :
    us' = us ∧ s.Revised (headsOf (us.flatMap FileUnit.items)) t ∧ ∀ u ∈ us, ∀ i ∈ u.items, i.Linked s t u.file :=
  h.linked_after hfresh (.refl s) hapart (fun _ _ _ (hown : False) => hown) hroom

theorem basesAgree_nil {t' : Store} : f.BasesAgree σ (headsOf []) t' := by
  have hnone : ∀ k n, ¬headsOf [] k n := by
    rintro k n ⟨_, h, _⟩
    exact List.not_mem_nil h
  exact ⟨fun c hc => absurd hc (hnone _ _), fun c hc => absurd hc (hnone _ _), fun i hi => absurd hi (hnone _ _)⟩

/-- The bases of a project are accepted under other identities and in any order, whatever units are read back from records. -/
theorem sweep_bases_rename (hvs : List.Forall₂ (fun v is => v.items = is.map (Item.rename σ)) vs iss)
    (hl : List.Forall₂ (fun v is => ∀ i ∈ is, Item.Linked s f v.file i) vs iss) (hf : f.Acyclic) (hclean : ∀ v ∈ vs, v.Clean)
    (hn : s.Named σ t) (hw : t.Within σ f) (hapart : iss.flatten.Pairwise Item.Apart)
    (hu : s.BasesAgree σ (headsOf iss.flatten) t)
    (hroom : ∀ i ∈ iss.flatten, ∀ k n, i.Heads k n → σ.index k n < t.count k) :
    ∃ t', Sweep p .bases vs t vs t' ∧ f.BasesAgree σ (headsOf iss.flatten) t' ∧ t.Revised (σ.image (headsOf iss.flatten)) t' := by
  induction hvs generalizing t with
  | nil => exact ⟨t, .nil, basesAgree_nil, .refl t⟩
  | @cons v is vs iss hitems hvs ih =>
    cases hl with
    | cons hfirst hl =>
      rw [List.flatten_cons] at hapart hu hroom ⊢
      obtain ⟨hitemsApart, hrest, hcross⟩ := List.pairwise_append.mp hapart
      have hv := hclean v List.mem_cons_self
      -- a unit without declarations, such as one that is read back, changes nothing
      have hunit : ∃ t₁, Goes (v.items.forM linkItem) v t () v t₁ ∧ t₁.Within σ f ∧ f.BasesAgree σ (headsOf is) t₁ ∧
          t.Revised (σ.image (headsOf is)) t₁ := by
        rcases hsrc : v.source with ⟨tree, items, imports⟩ | ⟨record, imports, pending⟩
        · have hfresh : v.IsFresh := ⟨tree, items, imports, hsrc⟩
          obtain ⟨t₁, hgoes, hw₁, hagree⟩ := goes_linkItems_rename hfirst hf hv hfresh hn hw hitemsApart
            (hu.mono fun k n hn => headsOf_append.mpr (.inl hn)) fun i hi => hroom i (List.mem_append_left _ hi)
          refine ⟨t₁, hitems ▸ hgoes, hw₁, hagree, ?_⟩
          exact ((movesUnit_linkItems _ fun _ _ => headsOf_rename).goes hfresh hgoes).1
        · have hnil : v.items = [] := by rw [FileUnit.items, hsrc]
          rw [hnil] at hitems ⊢
          obtain rfl := List.map_eq_nil_iff.mp hitems.symm
          exact ⟨t, goes_forM_nil.mpr ⟨hv, rfl, rfl⟩, hw, basesAgree_nil, .refl t⟩
      obtain ⟨t₁, hgoes, hw₁, hagree, hrevised⟩ := hunit
      have hdisjoint : ∀ k n, headsOf is k n → ¬headsOf iss.flatten k n := by
        rintro k n ⟨i, hi, hn⟩ ⟨j, hj, hn'⟩
        exact hcross i hi j hj k n hn hn'
      obtain ⟨t', hsweep, hagree', hafter⟩ := ih hl (fun v hv => hclean v (List.mem_cons_of_mem _ hv)) (hrevised.named_right hn)
        hw₁ hrest ((hu.mono fun k n hn => headsOf_append.mpr (.inr hn)).right hrevised
          fun k n hn hn' => hdisjoint k n hn' hn) fun i hi k n hn => by
          rw [hrevised.count]
          exact hroom i (List.mem_append_right _ hi) k n hn
      have hkept : f.BasesAgree σ (headsOf is) t' :=
        hagree.right hafter hdisjoint
      refine ⟨t', .cons (goes_bases hgoes) hsweep, hkept.union hagree' fun k n hn => headsOf_append.mp hn, ?_⟩
      refine (hrevised.mono fun k n hn => ?_).trans (hafter.mono fun k n hn => ?_)
      · obtain ⟨m, hm, rfl⟩ := hn
        exact ⟨m, headsOf_append.mpr (.inl hm), rfl⟩
      · obtain ⟨m, hm, rfl⟩ := hn
        exact ⟨m, headsOf_append.mpr (.inr hm), rfl⟩

end Projects

end Analysis

end Weft
