import Weft.Proofs.Renaming.Matched
import Weft.Proofs.Renaming.Slots

/-!
# The order of the files

Phase by phase, what the analysis makes of a unit it makes of the same unit under other identities. So the symbols of both
sides mirror each other before the bodies, and members have the same positions after them.
-/

namespace Weft

namespace Store

variable {σ : Renaming} {own known : SymKind → Nat → Prop} {s s' t t' : Store}

theorem Agrees.named (h : s.Agrees σ (fun _ _ => True) t) : s.Named σ t where
  space n := h.space n trivial
  enumeration e := h.enumeration e trivial
  func f := let ⟨index, hf⟩ := h.func f trivial; ⟨_, index, hf⟩
  global g := ⟨_, h.global g trivial⟩
  field f := let ⟨index, hf⟩ := h.field f trivial; ⟨_, index, hf⟩
  cls c := ⟨_, _, _, _, _, h.cls c trivial⟩
  iface i := ⟨_, h.iface i trivial⟩

theorem Agrees.typesAgree (h : s.Agrees σ own t) : s.TypesAgree σ own t where
  func f hf := by
    obtain ⟨_, heq⟩ := h.func f hf
    rw [heq]
    rfl
  global g hg := by
    rw [h.global g hg]
    rfl
  field f hf := by
    obtain ⟨_, heq⟩ := h.field f hf
    rw [heq]
    rfl

theorem Agrees.basesAgree (h : s.Agrees σ own t) : s.BasesAgree σ own t where
  super c hc := by
    rw [h.cls c hc]
    rfl
  implements c hc := by
    rw [h.cls c hc]
    rfl
  bases i hi := by
    rw [h.iface i hi]
    rfl

theorem Revised.laidOut (h : s.Revised own s') (c : ClassId) : (s'.cls c).laidOut = (s.cls c).laidOut := by
  obtain ⟨_, _, hc, -⟩ := h.cls c
  rw [hc]

theorem Revised.funcIndex (h : s.Revised own s') (f : FuncId) : (s'.func f).index = (s.func f).index := by
  obtain ⟨_, hf, -⟩ := h.func f
  rw [hf]

theorem Revised.fieldIndex (h : s.Revised own s') (f : FieldId) : (s'.field f).index = (s.field f).index := by
  obtain ⟨_, hf, -⟩ := h.field f
  rw [hf]

theorem SamePositions.revised {own' : SymKind → Nat → Prop} (h : s.SamePositions σ (fun _ _ => True) t) (hs : s.Revised own s')
    (ht : t.Revised own' t') : s'.SamePositions σ (fun _ _ => True) t' where
  func f _ := by rw [ht.funcIndex, hs.funcIndex, h.func f trivial]
  field f _ := by rw [ht.fieldIndex, hs.fieldIndex, h.field f trivial]

/-- Bases that agree with those before or after all are linked are a part of the latter. -/
theorem within_of_basesAgree (hstart : s.BasesAgree σ (fun k n => ¬known k n) t) (hknown : s'.BasesAgree σ known t)
    (hr : s.Revised own s') (hcls : ∀ c : ClassId, own .cls c.index → (s.cls c).super = none)
    (hiface : ∀ i : InterfaceId, own .iface i.index → (s.iface i).bases = []) : t.Within σ s' where
  super c b hb := by
    by_cases hk : known .cls c.index
    · rw [hknown.super c hk, Option.map_eq_some_iff] at hb
      obtain ⟨b₀, hb₀, rfl⟩ := hb
      exact ⟨b₀, hb₀, rfl⟩
    · rw [hstart.super c hk, Option.map_eq_some_iff] at hb
      obtain ⟨b₀, hb₀, rfl⟩ := hb
      refine ⟨b₀, ?_, rfl⟩
      rw [hr.super fun hown => by rw [hcls c hown] at hb₀; cases hb₀]
      exact hb₀
  bases i b hb := by
    by_cases hk : known .iface i.index
    · rw [hknown.bases i hk, List.mem_map] at hb
      obtain ⟨b₀, hb₀, rfl⟩ := hb
      exact ⟨b₀, hb₀, rfl⟩
    · rw [hstart.bases i hk, List.mem_map] at hb
      obtain ⟨b₀, hb₀, rfl⟩ := hb
      refine ⟨b₀, ?_, rfl⟩
      rw [hr.bases fun hown => by rw [hiface i hown] at hb₀; cases hb₀]
      exact hb₀

end Store

namespace Analysis

/-- The classes and interfaces of two stores are the same. -/
def SameHeads (s s' : Store) : Prop := s'.classes = s.classes ∧ s'.interfaces = s.interfaces

instance : Std.Refl SameHeads := ⟨fun _ => ⟨rfl, rfl⟩⟩

instance : IsTrans Store SameHeads := ⟨fun _ _ _ h h' => ⟨h'.1.trans h.1, h'.2.trans h.2⟩⟩

theorem movesUnit_types_sameHeads {p : Project} : MovesUnit SameHeads (runPhase p .types) := by
  refine movesUnit_get_bind fun u hu => ?_
  obtain ⟨tree, items, imports, hsrc⟩ := hu
  rw [hsrc]
  exact movesUnit_forM fun i _ => movesUnit_typeItem (fun _ _ _ _ => ⟨rfl, rfl⟩) (fun _ _ _ => ⟨rfl, rfl⟩) fun _ _ _ => ⟨rfl, rfl⟩

theorem basesAgree_sameHeads {σ : Renaming} {own : SymKind → Nat → Prop} {s s' t t' : Store} (h : s.BasesAgree σ own t)
    (hs : SameHeads s s') (ht : SameHeads t t') : s'.BasesAgree σ own t' where
  super c hc := by
    rw [Store.cls, Store.cls, hs.1, ht.1]
    exact h.super c hc
  implements c hc := by
    rw [Store.cls, Store.cls, hs.1, ht.1]
    exact h.implements c hc
  bases i hi := by
    rw [Store.iface, Store.iface, hs.2, ht.2]
    exact h.bases i hi

section Same

variable {σ : Renaming}

theorem Item.In.mono {own own' : SymKind → Nat → Prop} {i : Item} (h : i.In own)
    (hown : ∀ k n, own k n → own' k n) : i.In own' := by
  cases i with
  | cls _ _ _ _ | iface _ _ _ _ => exact ⟨hown _ _ h.1, fun m hm => hown _ _ (h.2 m hm)⟩
  | _ => exact hown _ _ h

theorem Item.In.rename {own : SymKind → Nat → Prop} {i : Item} (h : i.In own) : (i.rename σ).In (σ.image own) := by
  cases i with
  | cls _ _ _ _ | iface _ _ _ _ =>
    refine ⟨⟨_, h.1, rfl⟩, fun m hm => ?_⟩
    obtain ⟨m', hm', rfl⟩ := List.mem_map.mp hm
    exact ⟨_, h.2 m' hm', rfl⟩
  | _ => exact ⟨_, h, rfl⟩

theorem FileUnit.items_rename (u : FileUnit) : (u.rename σ).items = u.items.map (Item.rename σ) := by
  obtain ⟨file, module, diags, broken, source⟩ := u
  cases source <;> rfl

theorem FileUnit.IsFresh.rename {u : FileUnit} (h : u.IsFresh) : (u.rename σ).IsFresh := by
  obtain ⟨tree, items, imports, hsrc⟩ := h
  exact ⟨tree, _, _, by rw [FileUnit.rename, hsrc]; rfl⟩

theorem FileUnit.classes_rename (u : FileUnit) : (u.rename σ).classes = u.classes.map σ.cls := by
  rw [FileUnit.classes, FileUnit.classes, FileUnit.items_rename, List.flatMap_map, List.map_flatMap]
  exact List.flatMap_congr fun i _ => by cases i <;> rfl

/-- A unit and the same unit under other identities. -/
def SameUnit (σ : Renaming) (u v : FileUnit) : Prop := v = u.rename σ

variable {own : String → SymKind → Nat → Prop} {p : Project} (p' : Project) {us us' us'' vs : List FileUnit} {s s' s'' t : Store}

theorem Matched.same (h : Matched σ own (SameUnit σ) us vs s t) {v : FileUnit} (hv : v ∈ vs) :
    ∃ u ∈ us, v = u.rename σ := by
  obtain ⟨u, hu, -, hsame⟩ := h.original hv
  exact ⟨u, hu, hsame⟩

/-- Imports are resolved and made visible on both sides. -/
theorem Matched.sameImports (h : Matched σ own (SameUnit σ) us vs s t) (hp : p.Imports σ p')
    (h₁ : Sweep p .linkImports us s us' s')
    (h₂ : Sweep p .addImports us' s' us'' s'') (hagrees : s.Agrees σ (fun _ _ => True) t)
    (hpositions : s.SamePositions σ (fun _ _ => True) t) {vs' vs'' : List FileUnit} {t' t'' : Store}
    (hv : runUnits p' vs .linkImports t = (vs', t')) (hv' : runUnits p' vs' .addImports t' = (vs'', t'')) :
    Matched σ own (SameUnit σ) us'' vs'' s'' t'' ∧ s''.Agrees σ (fun _ _ => True) t'' ∧
      s''.SamePositions σ (fun _ _ => True) t'' := by
  obtain ⟨rfl, ht, hlinked⟩ := h.linkImports p' h₁ (Q := SameUnit σ) fun u hu v hv hname hsame => by
    obtain ⟨tree, items, imports, hsrc⟩ := h.fresh u hu
    rw [hsame]
    exact (linkImports_rename hp hsrc s t).1
  rw [hv] at ht hlinked
  obtain rfl : t' = t := ht
  obtain ⟨hmatched, hagrees'⟩ := hlinked.addImports p' h₂ hagrees (Q := SameUnit σ)
    (fun u v hsame => by rw [hsame]; rfl) fun u hu v hv hname s t hsame hlinks => by
      obtain ⟨tree, items, imports, hsrc⟩ := hlinked.fresh u hu
      rw [hsame]
      exact addImports_rename hsrc hlinks
  have hrest := (relinked_runUnits p us' s').1
  have hrest' := (relinked_runUnits p' vs' t').1
  rw [h₂.runUnits_eq] at hrest
  rw [hv'] at hmatched hagrees' hrest'
  dsimp only at hrest hrest'
  refine ⟨hmatched, hagrees', ⟨fun f _ => ?_, fun f _ => ?_⟩⟩
  · rw [hrest, hrest']
    exact hpositions.func f trivial
  · rw [hrest, hrest']
    exact hpositions.field f trivial

/-- Types are found on both sides. -/
theorem Matched.sameTypes (h : Matched σ own (SameUnit σ) us vs s t) (hsweep : Sweep p .types us s us' s') (hn : s.Named σ t)
    (htypes : s.TypesAgree σ (fun _ _ => True) t) {vs' : List FileUnit} {t' : Store} (hv : runUnits p' vs .types t = (vs', t')) :
    Matched σ own (SameUnit σ) us' vs' s' t' ∧ s'.Named σ t' ∧ s'.TypesAgree σ (fun _ _ => True) t' ∧
      s.Revised (fun k i => ∃ u ∈ us, own u.module.name k i) s' ∧
      t.Revised (σ.image fun k i => ∃ u ∈ us, own u.module.name k i) t' := by
  obtain ⟨hmatched, hn', htypes', -, hrevised, hrevised'⟩ := h.types p' hsweep hn htypes (Q := SameUnit σ)
    (fun v hv t' hinside => by
      obtain ⟨u, hu, rfl⟩ := h.same hv
      refine revised_types (h.fresh u hu).rename (fun i hi => ?_) (hinside _)
      rw [FileUnit.items_rename] at hi
      obtain ⟨j, hj, rfl⟩ := List.mem_map.mp hi
      exact (h.items u hu j hj).rename)
    fun d hd v hv hname t hsame htyping => by
      rw [hsame]
      exact types_rename (h.fresh _ (unit_mem_of_turn hd)) (h.items _ (unit_mem_of_turn hd)) htyping
  rw [hv] at hmatched hn' htypes' hrevised'
  exact ⟨hmatched, hn', htypes', hrevised, hrevised'⟩

/-- Types stay the same where bases are linked. -/
theorem typesAgree_of_bases {items items' : List Item} (h : s.TypesAgree σ (fun _ _ => True) t)
    (hs : s.Revised (headsOf items) s')
    {t' : Store} (ht : t.Revised (σ.image (headsOf items')) t') : s'.TypesAgree σ (fun _ _ => True) t' := by
  have hheads : ∀ {items : List Item} {k n}, headsOf items k n → k = .cls ∨ k = .iface := by
    rintro items k n ⟨i, -, hi⟩
    cases i with
    | cls _ _ _ _ => exact .inl hi.1
    | iface _ _ _ _ => exact .inr hi.1
    | _ => exact hi.elim
  let typed (k : SymKind) (_ : Nat) : Prop := ¬(k = .cls ∨ k = .iface)
  have htyped : s.TypesAgree σ typed t := h.mono fun _ _ _ => trivial
  have hresult := (htyped.left hs fun _ _ hk hn => hk (hheads hn)).right ht fun _ _ hk hn => hk (hheads hn)
  exact ⟨fun f _ => hresult.func f (by simp [typed]), fun g _ => hresult.global g (by simp [typed]),
    fun f _ => hresult.field f (by simp [typed])⟩

/-- Bases are linked on both sides. -/
theorem Matched.sameBases (h : Matched σ own (SameUnit σ) us vs s t) (hsweep : Sweep p .bases us s us' s')
    (hapart : (us.flatMap FileUnit.items).Pairwise Item.Apart) (hclean : ∀ u ∈ us, u.Clean) (hn : s.Named σ t)
    (htypes : s.TypesAgree σ (fun _ _ => True) t) (hbases : s.BasesAgree σ (fun _ _ => True) t) (hac : s'.Acyclic)
    (hcls : ∀ c : ClassId, headsOf (us.flatMap FileUnit.items) .cls c.index → (s.cls c).super = none)
    (hiface : ∀ i : InterfaceId, headsOf (us.flatMap FileUnit.items) .iface i.index → (s.iface i).bases = [])
    (hcount : ∀ k, s.count k = t.count k) :
    us' = us ∧ s.Revised (headsOf (us.flatMap FileUnit.items)) s' ∧ ∃ t', Sweep p' .bases vs t vs t' ∧ s'.Mirrors σ t' ∧
      t.Revised (σ.image (headsOf (us.flatMap FileUnit.items))) t' ∧ Matched σ own (SameUnit σ) us vs s' t' := by
  let known (_ : FileUnit) : Prop := False
  have hno : ∀ k n, ¬∃ u ∈ us, known u ∧ headsOf (FileUnit.items u) k n := fun k n ⟨_, _, h, _⟩ => h
  have hstart : s.BasesAgree σ (fun k n => ¬∃ u ∈ us, known u ∧ headsOf u.items k n) t := hbases.mono fun _ _ _ => trivial
  have hknown : s'.BasesAgree σ (fun k n => ∃ u ∈ us, known u ∧ headsOf u.items k n) t :=
    ⟨fun c hc => absurd hc (hno _ _), fun c hc => absurd hc (hno _ _), fun i hi => absurd hi (hno _ _)⟩
  have hrevised : s.Revised (headsOf (us.flatMap FileUnit.items)) s' := by
    refine (hsweep.linked h.fresh hapart ?_).2.1
    intro i hi k n hn
    obtain ⟨u, hu, hi⟩ := List.mem_flatMap.mp hi
    exact h.room _ k n ((h.items u hu i hi).heads hn)
  obtain ⟨rfl, -, t', hsweep', hagree, hrevised'⟩ := h.bases p' hsweep hapart
    (fun v hv => by
      obtain ⟨u, hu, rfl⟩ := h.same hv
      exact FileUnit.clean_rename σ (hclean u hu)) hn
    (Store.within_of_basesAgree hstart hknown hrevised hcls hiface) hac
    (fun u v hsame => ⟨by rw [hsame]; rfl, fun hu => hu.elim, fun _ => by rw [hsame, FileUnit.items_rename]⟩) hstart hknown
  have htypes' := typesAgree_of_bases htypes hrevised hrevised'
  refine ⟨rfl, hrevised, t', hsweep', mirrors_of_named (hrevised'.named_right
    (hrevised.named_left hn)) htypes' hagree hac fun k => ?_,
    hrevised', ?_⟩
  · rw [hrevised.count, hrevised'.count, hcount]
  · have hnext := h.next p' (h.toDeclaring.sweep (by simp) hsweep hrevised.count fun name =>
      hrevised.inside (h.inside name)) hsweep
      (Q := SameUnit σ) (by rw [hsweep'.runUnits_eq]; exact h.paired) (by rw [hsweep'.runUnits_eq]; exact hrevised'.count)
    rwa [hsweep'.runUnits_eq] at hnext

/-- A hierarchy is acyclic under other identities if all that is there has a counterpart. -/
theorem acyclic_of_mirrors (h : s.Mirrors σ t) (hcls : ∀ c : ClassId, c.index < t.classes.size → ∃ b, σ.cls b = c)
    (hiface : ∀ i : InterfaceId, i.index < t.interfaces.size → ∃ j, σ.iface j = i) : t.Acyclic := by
  have hw : t.Within σ s := by
    refine ⟨fun c b hb => ?_, fun i b hb => ?_⟩
    · rw [h.cls_super, Option.map_eq_some_iff] at hb
      obtain ⟨b₀, hb₀, rfl⟩ := hb
      exact ⟨b₀, hb₀, rfl⟩
    · rw [h.iface_bases, List.mem_map] at hb
      obtain ⟨b₀, hb₀, rfl⟩ := hb
      exact ⟨b₀, hb₀, rfl⟩
  refine ⟨fun c hc => ?_, fun i hi => ?_⟩
  · obtain ⟨b, hb, hrest⟩ := Relation.TransGen.head'_iff.mp hc
    have hlt : c.index < t.classes.size := by
      by_contra hout
      rw [Store.Derives, Store.cls_of_size_le (Nat.le_of_not_lt hout)] at hb
      cases hb
    obtain ⟨c, rfl⟩ := hcls c hlt
    obtain ⟨b₀, hb₀, rfl⟩ := hw.super c b hb
    obtain ⟨c', hreach, heq⟩ := hw.reaches_class hrest
    obtain rfl := σ.cls.injective heq
    exact h.acyclic.cls c (Relation.TransGen.head' hb₀ hreach)
  · obtain ⟨b, hb, hrest⟩ := Relation.TransGen.head'_iff.mp hi
    have hlt : i.index < t.interfaces.size := by
      by_contra hout
      have hdefault : t.iface i = default := congrArg (Option.getD · default) (Array.getElem?_eq_none (Nat.le_of_not_lt hout))
      rw [Store.Extends, hdefault] at hb
      cases hb
    obtain ⟨i, rfl⟩ := hiface i hlt
    obtain ⟨b₀, hb₀, rfl⟩ := hw.bases i b hb
    obtain ⟨i', hreach, heq⟩ := hw.reaches_interface hrest
    obtain rfl := σ.iface.injective heq
    exact h.acyclic.iface i (Relation.TransGen.head' hb₀ hreach)

/-- Bodies are analyzed on both sides, and members get the same positions. -/
theorem Matched.sameBodies (h : Matched σ own (SameUnit σ) us vs s t) (hsweep : Sweep p .bodies us s us' s')
    (hclean : ∀ u ∈ us, u.Clean) (hm : s.Mirrors σ t) (hwell : s.WellLaid) (hlaid : ∀ c, (s.cls c).laidOut = false)
    (hlaid' : ∀ c, (t.cls c).laidOut = false) (hpositions : s.SamePositions σ (fun _ _ => True) t)
    (hlt : ∀ k i, σ.index k i < t.count k ↔ i < s.count k) (honto : ∀ k i, i < t.count k → ∃ j < s.count k, σ.index k j = i)
    {vs' : List FileUnit} {t' : Store} (hv : runUnits p' vs .bodies t = (vs', t')) :
    s'.Places σ t' ∧ s.Relaid s' ∧ t.Relaid t' ∧ Paired (SameUnit σ) us' vs' ∧ ∀ v ∈ vs', v.diags = [] := by
  have hcls : ∀ c : ClassId, c.index < t.classes.size → ∃ b, σ.cls b = c := fun c hc => by
    obtain ⟨j, -, hj⟩ := honto .cls c.index hc
    exact ⟨⟨j⟩, congrArg ClassId.mk hj⟩
  have hac := acyclic_of_mirrors hm hcls fun i hi => by
    obtain ⟨j, -, hj⟩ := honto .iface i.index hi
    exact ⟨⟨j⟩, congrArg InterfaceId.mk hj⟩
  have hwell' := hm.wellLaid hwell.sound hac hlaid' hcls
  obtain ⟨hpaired, hlaying⟩ := h.bodies p' hsweep hm (Q := SameUnit σ) fun u hu v hv hname s t hsame hm => by
    rw [hsame]
    exact bodies_rename (h.fresh u hu) hm
  rw [hv] at hpaired hlaying
  have hnames : vs'.map (·.module.name) = vs.map (·.module.name) := by
    have hsame : (runUnits p' vs .bodies t).1.map (·.module.name) = vs.map (·.module.name) := names_runUnits
    rwa [hv] at hsame
  have hquiet : ∀ v ∈ vs', v.diags = [] := by
    intro v hmem
    obtain ⟨w, hw, hwname⟩ := List.mem_map.mp (hnames ▸ List.mem_map_of_mem (f := fun v : FileUnit => v.module.name) hmem)
    obtain ⟨u, hu, hname⟩ := h.back w hw
    obtain ⟨u', hu', hname'⟩ := List.mem_map.mp (hsweep.names ▸ List.mem_map_of_mem (f := fun u : FileUnit => u.module.name) hu)
    obtain ⟨v', hv', hvname, rfl⟩ := hpaired u' hu'
    obtain rfl := List.inj_on_of_nodup_map (hnames ▸ h.names') hv' hmem (hvname.trans (hname'.trans (hname.symm.trans hwname)))
    exact (hsweep.clean u' hu').diags
  have hsweep' : Sweep p' .bodies vs t vs' t' := sweep_runUnits (fun v hv => by
    obtain ⟨u, hu, rfl⟩ := h.same hv
    exact FileUnit.clean_rename σ (hclean u hu)) hv hquiet
  have hall : s.LaidOutAll (us.flatMap FileUnit.classes) s' := (sweep_bodies_checked hsweep).1 ▸ hwell.layouts _
  have hall' : t.LaidOutAll (vs.flatMap FileUnit.classes) t' := (sweep_bodies_checked hsweep').1 ▸ hwell'.layouts _
  have hmade : ∀ c, t.Made (σ.cls c) ↔ s.Made c := by
    intro c
    have hsize := hlt .cls c.index
    rw [Store.Made, Store.Made, hlaid, hlaid']
    simp only [Bool.false_eq_true, false_or]
    change t.count .cls ≤ σ.index .cls c.index ↔ s.count .cls ≤ c.index
    omega
  have hclasses : ∀ c, σ.cls c ∈ vs.flatMap FileUnit.classes ↔ c ∈ us.flatMap FileUnit.classes := by
    intro c
    simp only [List.mem_flatMap]
    constructor
    · rintro ⟨v, hv, hc⟩
      obtain ⟨u, hu, rfl⟩ := h.same hv
      rw [FileUnit.classes_rename, List.mem_map_of_injective σ.cls.injective] at hc
      exact ⟨u, hu, hc⟩
    · rintro ⟨u, hu, hc⟩
      obtain ⟨v, hv, -, rfl⟩ := h.paired u hu
      exact ⟨_, hv, by rw [FileUnit.classes_rename]; exact List.mem_map_of_mem hc⟩
  have hmade' : ∀ c, s'.Made c → t'.Made (σ.cls c) := by
    intro c hc
    rw [hall.made] at hc
    rw [hall'.made, hmade]
    refine hc.imp_right ?_
    rintro ⟨b, hb, hmem⟩
    exact ⟨σ.cls b, (hclasses b).mpr hb, by rw [hm.lineage]; exact List.mem_map_of_mem hmem⟩
  refine ⟨hall.places hall' hm hlaying.mirrors hwell'.sound (fun c hc => ?_) (fun c => (hmade c).mp)
    (fun f hf => ?_) fun x hx => ?_,
    hlaying.left, hlaying.right, hpaired, hquiet⟩
  · obtain ⟨v, hv, hmem⟩ := List.mem_flatMap.mp hc
    obtain ⟨u, hu, rfl⟩ := h.same hv
    rw [FileUnit.classes_rename] at hmem
    obtain ⟨b, hb, rfl⟩ := List.mem_map.mp hmem
    exact ⟨b, List.mem_flatMap.mpr ⟨u, hu, hb⟩, rfl⟩
  · rw [hall.func_unmade hwell.sound fun c hc hmade => hf c hc (hmade' c hmade), hpositions.func f trivial]
  · rw [hall.field_unmade hwell.sound fun c hc hmade => hx c hc (hmade' c hmade), hpositions.field x trivial]

end Same

end Analysis

end Weft

/-!
## Files in another order

The same files are analyzed in two orders. Where nothing is reported for the one, nothing is for the other, and the symbols
and the files are the same under other identities.
-/

namespace Weft

/-- The native modules of a registry are there. -/
def Registry.In (r : Registry) (s : Store) : Prop := ∀ path n, r.lookup? path = some n → n.index < s.spaces.size

namespace Analysis

section Orders

variable {σ : Renaming} {registry : Registry} {resolver : Option Resolver} {us vs : List FileUnit} {s : Store}

/-- Under different names, an entry is what its name leads to. -/
theorem lookup_eq_some_iff_mem {α : Type} {xs : List (String × α)} (hnodup : (xs.map Prod.fst).Nodup) {name : String} {a : α} :
    xs.lookup name = some a ↔ (name, a) ∈ xs := by
  rw [List.lookup_eq_some_iff]
  constructor
  · rintro ⟨before, after, rfl, -⟩
    simp
  · intro hmem
    obtain ⟨before, after, rfl⟩ := List.append_of_mem hmem
    refine ⟨before, after, rfl, fun e he => ?_⟩
    rw [List.map_append, List.map_cons] at hnodup
    have hnot := (List.nodup_middle.mp hnodup).notMem
    refine bne_iff_ne.mpr ?_
    rintro rfl
    exact hnot (List.mem_append_left _ (List.mem_map.mpr ⟨e, he, rfl⟩))

/-- The order does not matter to what a name leads to. -/
theorem lookup_reverse_perm {α : Type} {xs ys : List (String × α)} (hperm : xs.Perm ys) (hnodup : (xs.map Prod.fst).Nodup)
    (name : String) : ys.reverse.lookup name = xs.reverse.lookup name := by
  have hxs : (xs.reverse.map Prod.fst).Nodup := by rwa [List.map_reverse, List.nodup_reverse]
  have hys : (ys.reverse.map Prod.fst).Nodup := by
    rw [List.map_reverse, List.nodup_reverse]
    exact (hperm.map _).nodup_iff.mp hnodup
  ext a
  rw [lookup_eq_some_iff_mem hxs, lookup_eq_some_iff_mem hys, List.mem_reverse, List.mem_reverse, hperm.mem_iff]

/-- Imports lead to the same modules in another order of the files. -/
theorem imports_perm (h : Opened us s) (hperm : us.Perm vs) (hreg : registry.In s) (hσ : σ.Fixes s) :
    (Project.new registry resolver us).Imports σ (Project.new registry resolver vs) := by
  intro file path
  have hlookup : ∀ name, (Project.new registry resolver vs).modules.lookup name =
      (Project.new registry resolver us).modules.lookup name := by
    intro name
    refine lookup_reverse_perm (hperm.map _) ?_ name
    rw [List.map_map]
    exact h.names
  have hspace : ∀ name n, (Project.new registry resolver us).modules.lookup name = some n → σ.space n = n := by
    intro name n hn
    obtain ⟨before, after, heq, -⟩ := List.lookup_eq_some_iff.mp hn
    have hmem : (name, n) ∈ (us.map fun u => (u.module.name, u.module.space)).reverse := by
      rw [show (us.map fun u => (u.module.name, u.module.space)).reverse = _ from heq]
      simp
    obtain ⟨u, hu, heq⟩ := List.mem_map.mp (List.mem_reverse.mp hmem)
    obtain ⟨-, rfl⟩ := Prod.mk.inj heq
    exact hσ.space (h.opens u hu).room
  unfold Project.import?
  simp only [Project.new] at hlookup hspace ⊢
  cases hr : registry.lookup? path with
  | some n =>
    simp [Except.map, hσ.space (hreg path n hr)]
  | none =>
    cases resolver with
    | none => rfl
    | some resolve =>
      simp only
      cases resolve file path with
      | error e => rfl
      | ok name =>
        simp only [bind, Except.bind, hlookup]
        cases hn : ((us.map fun u => (u.module.name, u.module.space)).reverse).lookup name with
        | none => rfl
        | some n => simp [Except.map, hspace name n hn]

theorem space_indexGlobals {m : Module} {items : List Item} {s : Store} : (indexGlobals m items s).1.space = m.space := by
  induction items generalizing m s with
  | nil => rfl
  | cons i items ih => cases i <;> exact ih

theorem FileUnit.Opens.isFresh {u : FileUnit} (h : u.Opens s) : u.IsFresh := let ⟨tree, hsrc⟩ := h.source; ⟨tree, [], [], hsrc⟩

theorem runUnits_finalize {p : Project} : runUnits p us .finalize s = (us, s) := by
  induction us with
  | nil => rfl
  | cons u us ih =>
    rw [runUnits_cons]
    exact congrArg (fun r : List FileUnit × Store => (u :: r.1, r.2)) ih

/-- The outlines of files in two orders leave counterparts. -/
theorem Opened.matched {p p' : Project} (h : Opened us s) (hperm : us.Perm vs)
    (hσ : Outlining.Renames p p' us vs s (fun e k => e.made p .outline k) σ) :
    Matched σ (Owned p us s) (SameUnit σ) (runUnits p us .outline s).1 (runUnits p' vs .outline s).1
      (runUnits p us .outline s).2 (runUnits p' vs .outline s).2 := by
  have houtlining := h.outlining p p' hperm
  obtain ⟨-, -, hturns⟩ := h.outlined hperm hσ
  have hcounterpart : ∀ u ∈ (runUnits p us .outline s).1, ∃ e ∈ turns p .outline us s, ∃ e' ∈ turns p' .outline vs s,
      e.result p .outline = u ∧ e'.name = e.name := by
    intro u hu
    obtain ⟨e, he, rfl⟩ := exists_turn_result hu
    obtain ⟨e', he', hname⟩ := houtlining.exists_counterpart he
    exact ⟨e, he, e', he', rfl, hname⟩
  have hfresh : ∀ e ∈ turns p .outline us s, (e.result p .outline).IsFresh ∧
      (e.result p .outline).module.space = e.unit.module.space := by
    intro e he
    obtain ⟨tree, hsrc⟩ := (h.opens _ (unit_mem_of_turn he)).source
    have hresult : e.result p .outline = (outline e.unit e.store).1.2 := rfl
    rw [hresult, outline_fresh_apply hsrc]
    exact ⟨⟨_, _, _, rfl⟩, space_indexGlobals⟩
  refine {
    names := by rw [names_runUnits]; exact h.names
    apart := houtlining.ownersApart
    fresh := fun u hu => ?_
    items := fun u hu i hi => ?_
    roots := fun u hu => ?_
    inside := houtlining.inside fun e he => ?_
    room := fun name k i hi => (houtlining.owned_room hσ hi).1
    names' := by rw [names_runUnits]; exact (h.perm hperm).names
    back := fun v hv => ?_
    paired := fun u hu => ?_
    room' := fun name k i hi => (houtlining.owned_room hσ hi).2 }
  · obtain ⟨e, he, rfl⟩ := exists_turn_result hu
    exact (hfresh e he).1
  · obtain ⟨e, he, e', he', rfl, hname⟩ := hcounterpart u hu
    have hin := (hturns e he e' he' hname).2.1 i hi
    rw [Turn.result_name]
    exact hin.mono fun k i => owned_of_turn he
  · obtain ⟨e, he, rfl⟩ := exists_turn_result hu
    rw [Turn.result_name, (hfresh e he).2]
    exact owned_of_turn he (.inr ⟨rfl, rfl⟩)
  · obtain ⟨e', he', hname⟩ := houtlining.exists_counterpart he
    exact (hturns e he e' he' hname).2.2
  · obtain ⟨e', he', rfl⟩ := exists_turn_result hv
    obtain ⟨u, hu, hname⟩ := houtlining.exists_original (unit_mem_of_turn he')
    obtain ⟨e, he, rfl⟩ := exists_turn p .outline s hu
    exact ⟨_, result_mem_of_turn he, by rw [Turn.result_name, Turn.result_name]; exact hname⟩
  · obtain ⟨e, he, e', he', rfl, hname⟩ := hcounterpart u hu
    exact ⟨_, result_mem_of_turn he', by rw [Turn.result_name, Turn.result_name]; exact hname, (hturns e he e' he' hname).1⟩

/-- What the phases make of files in one order they make of them in another, with other identities. -/
theorem Opened.sweeps_perm {u₁ u₂ u₃ u₄ u₅ u₆ : List FileUnit} {s₁ s₂ s₃ s₄ s₅ s₆ : Store} (h : Opened us s) (hs : Hosted s)
    (hreg : registry.In s) (hperm : us.Perm vs) (h₁ : Sweep (.new registry resolver us) .outline us s u₁ s₁)
    (h₂ : Sweep (.new registry resolver us) .linkImports u₁ s₁ u₂ s₂)
    (h₃ : Sweep (.new registry resolver us) .addImports u₂ s₂ u₃ s₃) (h₄ : Sweep (.new registry resolver us) .types u₃ s₃ u₄ s₄)
    (h₅ : Sweep (.new registry resolver us) .bases u₄ s₄ u₅ s₅) (h₆ : Sweep (.new registry resolver us) .bodies u₅ s₅ u₆ s₆) :
    ∃ σ : Renaming, s₆.Places σ (run registry resolver vs s).2 ∧ (run registry resolver vs s).2.spaces.size = s₆.spaces.size ∧
      Paired (SameUnit σ) u₆ (run registry resolver vs s).1 ∧ ∀ v ∈ (run registry resolver vs s).1, v.diags = [] := by
  have hfresh : ∀ u ∈ us, u.IsFresh := fun u hu => (h.opens u hu).isFresh
  obtain ⟨hsame, hac, hwell, hlaid, hitems⟩ := wellLaid_before_bodies hfresh hs h₁ h₂ h₃ h₄ h₅ h₆
  set p := Project.new registry resolver us
  set p' := Project.new registry resolver vs with hp'
  rcases hv₁ : runUnits p' vs .outline s with ⟨v₁, t₁⟩
  rcases hv₂ : runUnits p' v₁ .linkImports t₁ with ⟨v₂, t₂⟩
  rcases hv₃ : runUnits p' v₂ .addImports t₂ with ⟨v₃, t₃⟩
  rcases hv₄ : runUnits p' v₃ .types t₃ with ⟨v₄, t₄⟩
  -- the outlines make the same symbols under other identities
  have houtlining := h.outlining p p' hperm
  obtain ⟨σ, hσ⟩ := houtlining.exists_renames
  have hmatched := h.matched hperm hσ
  obtain ⟨hagrees, hpositions, -⟩ := h.outlined hperm hσ
  have hcount := houtlining.count_eq
  have hlt := fun k i => houtlining.index_lt_iff (k := k) (i := i) hσ
  have honto := fun k i => houtlining.onto (k := k) (i := i) hσ
  have hapart := Sweep.headsApart hfresh h₁
  rw [h₁.runUnits_eq, hv₁] at hmatched hagrees hpositions
  simp only [h₁.runUnits_eq, hv₁] at hcount hlt honto
  obtain ⟨hmatched, hagrees, hpositions⟩ := hmatched.sameImports p'
    (imports_perm h hperm hreg hσ.fixes) h₂ h₃ hagrees hpositions hv₂ hv₃
  have hcount₃ : ∀ k, s₃.count k = s₁.count k := fun k => by
    have hadd := count_addImports p u₂ s₂ k
    have hlink := runUnits_linkImports p u₁ s₁
    rw [h₃.runUnits_eq] at hadd
    rw [h₂.runUnits_eq] at hlink
    exact hadd.trans (congrArg (Store.count · k) hlink)
  have hcount₃' : ∀ k, t₃.count k = t₁.count k := fun k => by
    have hadd := count_addImports p' v₂ t₂ k
    have hlink := runUnits_linkImports p' v₁ t₁
    rw [hv₃] at hadd
    rw [hv₂] at hlink
    exact hadd.trans (congrArg (Store.count · k) hlink)
  -- types are found, and no bases yet
  have hheads := (h₄.moves movesUnit_types_sameHeads hmatched.fresh).1
  have hheads' := (moves_runUnits (movesUnit_types_sameHeads (p := p')) (fun v hv => by
    obtain ⟨u, hu, rfl⟩ := hmatched.same hv
    exact (hmatched.fresh u hu).rename) t₃).1
  rw [hv₄] at hheads'
  obtain ⟨hmatched, hnamed, htypes, hrevised, hrevised'⟩ := hmatched.sameTypes p' h₄ hagrees.named hagrees.typesAgree hv₄
  have hbases := basesAgree_sameHeads hagrees.basesAgree hheads hheads'
  -- bases are linked: the new classes and interfaces had none
  have hnew : ∀ k n, headsOf (u₄.flatMap FileUnit.items) k n → s.count k ≤ n := by
    rintro k n ⟨i, hi, hn⟩
    exact (hapart.between i (hitems ▸ hi) k n hn).1
  obtain ⟨rfl, hlinked, t₅, h₅', hmirrors, hlinked', hmatched⟩ := hmatched.sameBases p' h₅ (hitems ▸ hapart.apart) h₄.clean
    hnamed htypes hbases hac (fun c hc => by rw [hsame.super, Store.cls_missing (hnew _ _ hc)]; rfl)
    (fun i hi => by rw [hsame.bases, Store.iface_missing (hnew _ _ hi)]; rfl)
    (fun k => by rw [hrevised.count, hrevised'.count, hcount₃, hcount₃', hcount])
  have hcount₅ : ∀ k, s₅.count k = s₁.count k := fun k => by rw [hlinked.count, hrevised.count, hcount₃]
  have hcount₅' : ∀ k, t₅.count k = t₁.count k := fun k => by rw [hlinked'.count, hrevised'.count, hcount₃']
  -- nothing is laid out before the bodies
  have hlaid' : ∀ c, (t₅.cls c).laidOut = false := by
    intro c
    rcases Nat.lt_or_ge c.index (t₁.count .cls) with hc | hc
    · obtain ⟨j, -, hj⟩ := honto .cls c.index hc
      obtain rfl : σ.cls ⟨j⟩ = c := congrArg ClassId.mk hj
      rw [hlinked'.laidOut, hrevised'.laidOut, hagrees.cls _ trivial]
      have hold := hlaid ⟨j⟩
      rw [hlinked.laidOut, hrevised.laidOut] at hold
      exact hold
    · rw [Store.cls_missing (by rw [hcount₅']; exact hc)]
      rfl
  rcases hv₆ : runUnits p' v₄ .bodies t₅ with ⟨v₆, t₆⟩
  obtain ⟨hplaces, hleft, hright, hpaired, hquiet⟩ := hmatched.sameBodies p' h₆ h₅.clean hmirrors hwell hlaid hlaid'
    ((hpositions.revised hrevised hrevised').revised hlinked hlinked') (fun k i => by rw [hcount₅, hcount₅', hlt])
    (fun k i hi => by
      rw [hcount₅'] at hi
      rw [hcount₅]
      exact honto k i hi) hv₆
  have hrun : run registry resolver vs s = (v₆, t₆) := by
    rw [run, ← hp', Phase.all, foldlM_cons, hv₁, foldlM_cons, hv₂, foldlM_cons, hv₃, foldlM_cons, hv₄, foldlM_cons,
      h₅'.runUnits_eq, foldlM_cons, hv₆, foldlM_cons, runUnits_finalize]
    rfl
  rw [hrun]
  refine ⟨σ, hplaces, ?_, hpaired, hquiet⟩
  rw [hleft.spaces, hright.spaces]
  exact (hcount₅' .space).trans ((hcount .space).symm.trans (hcount₅ .space).symm)

/-- A project that is about to be analyzed: files that have been read, native modules, and native classes that their host
declared soundly. -/
structure Prepared (registry : Registry) (us : List FileUnit) (s : Store) : Prop extends Opened us s where
  hosted : Hosted s
  natives : registry.In s

theorem Prepared.perm (h : Prepared registry us s) (hperm : us.Perm vs) : Prepared registry vs s :=
  ⟨h.toOpened.perm hperm, h.hosted, h.natives⟩

/-- What an analysis leaves of a file and what another one does: the same typed tree but for the identities of symbols, the same
record of its module, and a tree that is compiled to the same module. -/
structure SameResult (σ : Renaming) (s s' : Store) (u v : FileUnit) : Prop where
  name : v.module.name = u.module.name
  tree : v.program? = u.program?.map (Typed.Program.rename σ)
  record : s'.exportModule v.module = s.exportModule u.module
  compiled : v.program?.map (Bytecode.compile s' v.module) = u.program?.map (Bytecode.compile s u.module)

/-- Counterparts have the same trees and records, and are compiled to the same modules. -/
theorem SameUnit.sameResult {σ : Renaming} {s s' : Store} (hplaces : s.Places σ s') (hspaces : s'.spaces.size = s.spaces.size)
    {u v : FileUnit} (h : SameUnit σ u v) : SameResult σ s s' u v := by
  have hmodule : v.module = u.module.rename σ := congrArg FileUnit.module h
  have hprogram : v.program? = u.program?.map (Typed.Program.rename σ) := by rw [h, FileUnit.program?_rename]
  have hrecord : s'.exportModule v.module = s.exportModule u.module :=
    hplaces.exportModule hspaces (by rw [hmodule]; rfl) (by rw [hmodule]; exact List.length_map _)
  have hcompiled : ∀ p, Bytecode.compile s' v.module (p.rename σ) = Bytecode.compile s u.module p := fun p =>
    Bytecode.compile_rename ⟨hplaces, by rw [hmodule]; rfl⟩ (by rw [hmodule]; rfl) (by rw [hmodule]; rfl) hrecord p
  refine ⟨by rw [hmodule]; rfl, hprogram, hrecord, ?_⟩
  rw [hprogram, Option.map_map]
  exact Option.map_congr fun p _ => hcompiled p

/-- Files that are accepted in one order are accepted in any other, and what the analysis leaves of them and of the symbols is
the same but for the identities of symbols. -/
theorem exists_rename_run_perm (h : Prepared registry us s) (hperm : us.Perm vs)
    (hquiet : ∀ u ∈ (run registry resolver us s).1, u.diags = []) :
    ∃ σ : Renaming, (run registry resolver us s).2.Places σ (run registry resolver vs s).2 ∧
      (run registry resolver vs s).2.spaces.size = (run registry resolver us s).2.spaces.size ∧
      Paired (SameUnit σ) (run registry resolver us s).1 (run registry resolver vs s).1 ∧
      ∀ v ∈ (run registry resolver vs s).1, v.diags = [] := by
  obtain _ | ⟨h₁, _ | ⟨h₂, _ | ⟨h₃, _ | ⟨h₄, _ | ⟨h₅, _ | ⟨h₆, _ | ⟨h₇, h₈⟩⟩⟩⟩⟩⟩⟩ :=
    sweeps_of_quiet (fun u hu => (h.opens u hu).clean) hquiet
  cases h₈
  obtain ⟨heq, heq'⟩ := sweep_finalize h₇
  rw [heq, heq']
  exact h.toOpened.sweeps_perm h.hosted h.natives hperm h₁ h₂ h₃ h₄ h₅ h₆

/-- **The order of the files does not matter.** Whether the files of a project are accepted does not depend on their order. If
they are, the symbols of one order are those of the other under other identities, and each file has the same typed tree under
these identities, the same record, and is compiled to the same module. -/
theorem run_perm (resolver : Option Resolver) (h : Prepared registry us s) (hperm : us.Perm vs) :
    ((∀ u ∈ (run registry resolver us s).1, u.diags = []) ↔ ∀ v ∈ (run registry resolver vs s).1, v.diags = []) ∧
      ((∀ u ∈ (run registry resolver us s).1, u.diags = []) →
        ∃ σ : Renaming, (run registry resolver us s).2.Places σ (run registry resolver vs s).2 ∧
          ∀ u ∈ (run registry resolver us s).1, ∃ v ∈ (run registry resolver vs s).1,
            SameResult σ (run registry resolver us s).2 (run registry resolver vs s).2 u v) := by
  refine ⟨⟨fun hquiet => ?_, fun hquiet => ?_⟩, fun hquiet => ?_⟩
  · obtain ⟨-, -, -, -, hquiet'⟩ := exists_rename_run_perm h hperm hquiet
    exact hquiet'
  · obtain ⟨-, -, -, -, hquiet'⟩ := exists_rename_run_perm (h.perm hperm) hperm.symm hquiet
    exact hquiet'
  · obtain ⟨σ, hplaces, hspaces, hpaired, -⟩ := exists_rename_run_perm h hperm hquiet
    refine ⟨σ, hplaces, fun u hu => ?_⟩
    obtain ⟨v, hv, -, hsame⟩ := hpaired u hu
    exact ⟨v, hv, hsame.sameResult hplaces hspaces⟩

end Orders

/-! ## Two files that refer to each other -/

/-- Symbols that are builtin types or namespaces only refer to namespaces. -/
theorem closed_of_spaces {s : Store} (hspaces : ∀ x ∈ s.spaces, (∀ n ∈ x.links, n.index < s.spaces.size) ∧
      ∀ e ∈ x.members.entries, ∃ b, e.2 = .builtin b) (hfuncs : s.funcs = #[]) (hglobals : s.globals = #[])
    (hfields : s.fields = #[]) (hclasses : s.classes = #[]) (hinterfaces : s.interfaces = #[]) (henums : s.enums = #[]) :
    s.Closed where
  spaces σ hσ x hx := by
    obtain ⟨hlinks, hentries⟩ := hspaces x hx
    have hmembers : x.members.rename σ = x.members := by
      have hmap : x.members.entries.map (fun e => (e.1, e.2.rename σ)) = x.members.entries := by
        refine (List.map_congr_left fun e he => ?_).trans (List.map_id _)
        obtain ⟨b, hb⟩ := hentries e he
        exact Prod.ext rfl (by change e.2.rename σ = e.2; rw [hb]; rfl)
      exact congrArg Table.mk hmap
    have hlinked : x.links.map σ.space = x.links :=
      (List.map_congr_left fun n hn => hσ.space (hlinks n hn)).trans (List.map_id _)
    rw [Namespace.rename, hmembers, hlinked]
  funcs := by simp [hfuncs]
  globals := by simp [hglobals]
  fields := by simp [hfields]
  classes := by simp [hclasses]
  interfaces := by simp [hinterfaces]
  enums := by simp [henums]

namespace Mutual

/-- The builtin types, and the modules of two files that see them. -/
def start : (Registry × Module × Module) × Store :=
  (do
    let r ← Registry.bare
    return (r, ← Module.new r "m" "m.weft", ← Module.new r "n" "n.weft") : Symbols (Registry × Module × Module)).run .empty

/-- A class with a field of a class of another module. -/
private def cls (name : String) (bases : List String) (field : List String) : Tree.Decl :=
  .cls { span := default, fileLocal := false, name, bases := bases.map fun b => .named default [b],
         fields := [{ span := default, type := .named default field, name := "x" }], methods := [] }

/-- The import of a module. -/
private def imports (path : String) : List Tree.Import := [{ span := default, path }]

/-- Two files that import each other. A class of the first has a field of a class of the second, which derives from
another class of the first. -/
def units : List FileUnit :=
  [.fresh "m.weft" { path := "m.weft", span := default, imports := imports "n", decls := [cls "A" [] ["B"], cls "C" [] ["int"]] }
      start.1.2.1,
    .fresh "n.weft" { path := "n.weft", span := default, imports := imports "m", decls := [cls "B" [] ["C"]] } start.1.2.2]

/-- Each import leads to the module of its name. -/
def resolver : Resolver := fun _ path => .ok path

theorem prepared : Prepared start.1.1 units start.2 := by
  have hspaces : ∀ x ∈ start.2.spaces, (∀ n ∈ x.links, n.index < start.2.spaces.size) ∧
      ∀ e ∈ x.members.entries, ∃ b, e.2 = .builtin b := by
    have hall : (start.2.spaces.toList.all fun x => (x.links.all fun n => n.index < start.2.spaces.size) &&
        x.members.entries.all fun e => match e.2 with
          | .builtin _ => true
          | _ => false) = true := by decide +kernel
    intro x hx
    have hx := List.all_eq_true.mp hall x (Array.mem_toList_iff.mpr hx)
    simp only [Bool.and_eq_true, List.all_eq_true, decide_eq_true_eq] at hx
    refine ⟨hx.1, fun e he => ?_⟩
    have hbuiltin := hx.2 e he
    split at hbuiltin
    · next b hb => exact ⟨b, hb⟩
    · cases hbuiltin
  have hclasses : start.2.classes = #[] := by decide +kernel
  have hinterfaces : start.2.interfaces = #[] := by decide +kernel
  have hacyclic : start.2.Acyclic := by
    apply Store.acyclic_of_no_bases
    · intro c
      rw [Store.cls, hclasses]
      rfl
    · intro i
      rw [Store.iface, hinterfaces]
      rfl
  refine {
    closed := closed_of_spaces hspaces (by decide +kernel) (by decide +kernel) (by decide +kernel) hclasses hinterfaces
      (by decide +kernel)
    opens := ?_
    names := by decide +kernel
    roots := by decide +kernel
    hosted := hosted_of_no_classes hclasses hacyclic
    natives := fun path n hn => by cases hn }
  intro u hu
  simp only [units, List.mem_cons, List.not_mem_nil, or_false] at hu
  rcases hu with rfl | rfl
  · exact ⟨⟨_, rfl⟩, ⟨rfl, rfl⟩, by decide +kernel, by decide +kernel,
      congrArg Table.mk (List.isEmpty_iff.mp (by decide +kernel))⟩
  · exact ⟨⟨_, rfl⟩, ⟨rfl, rfl⟩, by decide +kernel, by decide +kernel,
      congrArg Table.mk (List.isEmpty_iff.mp (by decide +kernel))⟩

end Mutual

/-- Both orders of the two files are accepted, with the same results. -/
theorem run_mutual_perm :
    Prepared Mutual.start.1.1 Mutual.units Mutual.start.2 ∧ Mutual.units.Perm Mutual.units.reverse ∧
      (∀ v ∈ (run Mutual.start.1.1 (some Mutual.resolver) Mutual.units.reverse Mutual.start.2).1, v.diags = []) ∧
      ∃ σ : Renaming, (run Mutual.start.1.1 (some Mutual.resolver) Mutual.units Mutual.start.2).2.Places σ
          (run Mutual.start.1.1 (some Mutual.resolver) Mutual.units.reverse Mutual.start.2).2 ∧
        ∀ u ∈ (run Mutual.start.1.1 (some Mutual.resolver) Mutual.units Mutual.start.2).1,
          ∃ v ∈ (run Mutual.start.1.1 (some Mutual.resolver) Mutual.units.reverse Mutual.start.2).1,
            SameResult σ (run Mutual.start.1.1 (some Mutual.resolver) Mutual.units Mutual.start.2).2
              (run Mutual.start.1.1 (some Mutual.resolver) Mutual.units.reverse Mutual.start.2).2 u v := by
  have hquiet : ∀ u ∈ (run Mutual.start.1.1 (some Mutual.resolver) Mutual.units Mutual.start.2).1, u.diags = [] := by
    decide +kernel
  have hperm : Mutual.units.Perm Mutual.units.reverse := (List.reverse_perm _).symm
  obtain ⟨hiff, hresults⟩ := run_perm (some Mutual.resolver) Mutual.prepared hperm
  exact ⟨Mutual.prepared, hperm, hiff.mp hquiet, hresults hquiet⟩

end Analysis

end Weft
