import Weft.Proofs.Analysis.ClassItems

/-!
# Layouts of accepted classes

Units that are accepted declare sound classes: their methods override methods of the same signature. Analyzing the bodies
lays classes out and changes no symbol otherwise, so every class of an accepted project, and every native class that its
host declared soundly, has a layout that fits those of its superclasses.
-/

namespace Weft

namespace Analysis

/-! ## Types and bases -/

/-- The types of functions and fields and the bases of classes were found, but for the classes and functions that are in
a store already. -/
structure Completed (a s s' : Store) : Prop where
  classCount : s'.classes.size = s.classes.size
  cls : ∀ c, ∃ super implements, s'.cls c = { s.cls c with super, implements }
  super : ∀ c : ClassId, c.index < a.classes.size → (s'.cls c).super = (s.cls c).super
  func : ∀ f, ∃ sig, s'.func f = { s.func f with sig }
  sig : ∀ f : FuncId, f.index < a.funcs.size → (s'.func f).sig = (s.func f).sig
  field : ∀ x, ∃ type, s'.field x = { s.field x with type }

section Completed

variable {a s s' s'' : Store} {c : ClassId}

theorem Completed.refl (s : Store) : Completed a s s :=
  ⟨rfl, fun _ => ⟨_, _, rfl⟩, fun _ _ => rfl, fun _ => ⟨_, rfl⟩, fun _ _ => rfl, fun _ => ⟨_, rfl⟩⟩

theorem Completed.trans (h : Completed a s s') (h' : Completed a s' s'') : Completed a s s'' where
  classCount := h'.classCount.trans h.classCount
  cls c := by
    obtain ⟨_, _, hc⟩ := h.cls c
    obtain ⟨super, implements, hc'⟩ := h'.cls c
    exact ⟨super, implements, by rw [hc', hc]⟩
  super c hc := (h'.super c hc).trans (h.super c hc)
  func f := by
    obtain ⟨_, hf⟩ := h.func f
    obtain ⟨sig, hf'⟩ := h'.func f
    exact ⟨sig, by rw [hf', hf]⟩
  sig f hf := (h'.sig f hf).trans (h.sig f hf)
  field x := by
    obtain ⟨_, hx⟩ := h.field x
    obtain ⟨type, hx'⟩ := h'.field x
    exact ⟨type, by rw [hx', hx]⟩

instance : Std.Refl (Completed a) := ⟨.refl⟩

instance : IsTrans Store (Completed a) := ⟨fun _ _ _ => .trans⟩

/-- Changes of symbols of other kinds. -/
theorem completed_of_eq {α : Type} {m : Symbols α} (hc : ∀ s, (m s).2.classes = s.classes)
    (hf : ∀ s, (m s).2.funcs = s.funcs) (hx : ∀ s, (m s).2.fields = s.fields) : MovesSymbols (Completed a) m := by
  intro s
  have hcls : ∀ c, (m s).2.cls c = s.cls c := fun c => by rw [Store.cls, Store.cls, hc]
  have hfunc : ∀ f, (m s).2.func f = s.func f := fun f => by rw [Store.func, Store.func, hf]
  have hfield : ∀ x, (m s).2.field x = s.field x := fun x => by rw [Store.field, Store.field, hx]
  exact ⟨by rw [hc], fun c => ⟨_, _, hcls c⟩, fun c _ => by rw [hcls], fun f => ⟨_, hfunc f⟩, fun f _ => by rw [hfunc],
    fun x => ⟨_, hfield x⟩⟩

theorem completed_updateSpace {n : NamespaceId} {f : Namespace → Namespace} :
    MovesSymbols (Completed a) (Store.updateSpace n f) :=
  completed_of_eq (fun _ => rfl) (fun _ => rfl) fun _ => rfl

theorem completed_updateFunc {f : FuncId} (hf : a.funcs.size ≤ f.index) {sig : Option Signature} :
    MovesSymbols (Completed a) (Store.updateFunc f ({ · with sig })) := by
  intro s
  refine ⟨rfl, fun _ => ⟨_, _, rfl⟩, fun _ _ => rfl, fun g => ?_, fun g hg => ?_, fun _ => ⟨_, rfl⟩⟩
  · rw [Store.func_updateFunc]
    split
    · exact ⟨_, rfl⟩
    · exact ⟨_, rfl⟩
  · rw [Store.func_updateFunc, if_neg]
    rintro ⟨rfl, -⟩
    omega

theorem completed_updateField {x : FieldId} {type : Option Ty} :
    MovesSymbols (Completed a) (Store.updateField x ({ · with type })) := by
  intro s
  refine ⟨rfl, fun _ => ⟨_, _, rfl⟩, fun _ _ => rfl, fun _ => ⟨_, rfl⟩, fun _ _ => rfl, fun y => ?_⟩
  rw [Store.field_updateField]
  split
  · exact ⟨_, rfl⟩
  · exact ⟨_, rfl⟩

theorem completed_updateClass {c : ClassId} (hc : a.classes.size ≤ c.index) {f : Class → Class}
    (hf : ∀ x, ∃ super implements, f x = { x with super, implements }) :
    MovesSymbols (Completed a) (Store.updateClass c f) := by
  intro s
  refine ⟨Array.size_modify .., fun d => ?_, fun d hd => ?_, fun _ => ⟨_, rfl⟩, fun _ _ => rfl, fun _ => ⟨_, rfl⟩⟩
  · rw [Store.cls_updateClass]
    split
    · exact hf _
    · exact ⟨_, _, rfl⟩
  · rw [Store.cls_updateClass, if_neg]
    rintro ⟨rfl, -⟩
    omega

theorem completed_typeItem {i : Item} (hi : i.After a) : MovesUnit (Completed a) (typeItem i) :=
  movesUnit_typeItem (fun m hm _ => completed_updateFunc (hi.methods m hm)) (fun _ _ => completed_updateField)
    fun _ _ => completed_of_eq (fun _ => rfl) (fun _ => rfl) fun _ => rfl

theorem completed_linkItem {i : Item} (hi : i.After a) : MovesUnit (Completed a) (linkItem i) :=
  movesUnit_itemBases (fun sc d c ms h _ hf => completed_updateClass (hi.cls sc d c ms h) hf)
    fun _ _ => completed_of_eq (fun _ => rfl) (fun _ => rfl) fun _ => rfl

end Completed

/-! ## Phases -/

section Phases

variable {a s s' : Store} {u u' : FileUnit} {us us' : List FileUnit} {p : Project} {ph : Phase}
  {R : Store → Store → Prop}

theorem MovesUnit.goes {α : Type} {m : OnUnit α} (h : MovesUnit R m) (hu : u.IsFresh) {x : α}
    (hg : Goes m u s x u' s') : R s s' ∧ u'.IsFresh := by
  have hmoves := h u s hu
  rwa [hg.result] at hmoves

/-- A phase that goes well moves the symbols as it does on every unit. -/
theorem Sweep.moves [IsTrans Store R] [Std.Refl R] (h : MovesUnit R (runPhase p ph)) (hus : ∀ u ∈ us, u.IsFresh)
    (hs : Sweep p ph us s us' s') : R s s' ∧ ∀ u ∈ us', u.IsFresh := by
  induction hs with
  | nil => exact ⟨Std.Refl.refl _, by simp⟩
  | cons head tail ih =>
    obtain ⟨hhead, hfresh⟩ := h.goes (hus _ List.mem_cons_self) head
    obtain ⟨htail, hall⟩ := ih fun v hv => hus v (List.mem_cons_of_mem _ hv)
    exact ⟨IsTrans.trans _ _ _ hhead htail, List.forall_mem_cons.mpr ⟨hfresh, hall⟩⟩

/-- The phases between the outline and the bodies find types and bases for the declarations of a unit. -/
theorem goes_completed (hph : ph ∈ [Phase.linkImports, .addImports, .types, .bases]) (hu : u.IsFresh)
    (hi : ∀ i ∈ u.items, i.After a) (h : Goes (runPhase p ph) u s () u' s') :
    Completed a s s' ∧ u'.IsFresh ∧ u'.items = u.items := by
  obtain ⟨tree, items, imports, hsrc⟩ := id hu
  rw [FileUnit.items_eq hsrc] at hi ⊢
  simp only [List.mem_cons, List.not_mem_nil, or_false] at hph
  rcases hph with rfl | rfl | rfl | rfl
  · obtain ⟨hmoves, hfresh⟩ := (movesUnit_linkImports (R := Completed a)).goes hu h
    obtain ⟨imports', st, -, -, rfl⟩ := goes_linkImports_fresh hsrc h
    exact ⟨hmoves, hfresh, rfl⟩
  · obtain ⟨hmoves, hfresh⟩ := (movesUnit_addImports fun _ _ => completed_updateSpace (a := a)).goes hu h
    obtain ⟨-, rfl⟩ := goes_addImports_fresh hsrc h
    exact ⟨hmoves, hfresh, FileUnit.items_eq hsrc⟩
  · obtain ⟨rfl, hg⟩ := goes_resolveDeclared_fresh hsrc h
    obtain ⟨hmoves, hfresh⟩ := (movesUnit_forM fun i hmem => completed_typeItem (hi i hmem)).goes hu hg
    exact ⟨hmoves, hfresh, FileUnit.items_eq hsrc⟩
  · obtain ⟨rfl, hg⟩ := goes_bases_fresh hsrc h
    obtain ⟨hmoves, hfresh⟩ := (movesUnit_forM fun i hmem => completed_linkItem (hi i hmem)).goes hu hg
    exact ⟨hmoves, hfresh, FileUnit.items_eq hsrc⟩

theorem sweep_completed (hph : ph ∈ [Phase.linkImports, .addImports, .types, .bases]) (hus : ∀ u ∈ us, u.IsFresh)
    (hi : ∀ i ∈ us.flatMap FileUnit.items, i.After a) (h : Sweep p ph us s us' s') :
    Completed a s s' ∧ (∀ u ∈ us', u.IsFresh) ∧ us'.flatMap FileUnit.items = us.flatMap FileUnit.items := by
  induction h with
  | nil => exact ⟨.refl _, by simp, rfl⟩
  | cons head tail ih =>
    rw [List.flatMap_cons, List.forall_mem_append] at hi
    obtain ⟨hhead, hfresh, hitems⟩ := goes_completed hph (hus _ List.mem_cons_self) hi.1 head
    obtain ⟨htail, hall, hrest⟩ := ih (fun v hv => hus v (List.mem_cons_of_mem _ hv)) hi.2
    exact ⟨hhead.trans htail, List.forall_mem_cons.mpr ⟨hfresh, hall⟩, by
      rw [List.flatMap_cons, List.flatMap_cons, hitems, hrest]⟩

end Phases

/-! ## Checks -/

/-- Where the superclass of a class has a member under the name of a method, it is a method with the same signature. -/
def Checked (s : Store) (c : ClassId) (ms : List Method) : Prop :=
  ∀ b, s.Derives c b → ∀ m ∈ ms, s.classMember? b (s.func m.symbol).name = none ∨
    ∃ g, s.classMember? b (s.func m.symbol).name = some (.func g) ∧
      sameSignature s (s.func g).sig (s.func m.symbol).sig = true

/-- The methods of a declaration of a class were checked. -/
def Item.Checked (s : Store) : Item → Prop
  | .cls _ _ c ms => Analysis.Checked s c ms
  | _ => True

/-- The class of a declaration. -/
def Item.classes : Item → List ClassId
  | .cls _ _ c _ => [c]
  | _ => []

/-- The classes that a unit declares. -/
def FileUnit.classes (u : FileUnit) : List ClassId := u.items.flatMap Item.classes

section Checks

variable {s s' : Store} {pl : Place} {st st' : State} {u u' : FileUnit} {p : Project} {us us' : List FileUnit}

theorem checked_relaid (h : s.Relaid s') {c : ClassId} {ms : List Method} : Checked s' c ms ↔ Checked s c ms := by
  simp only [Checked, h.derives, h.classMember?, h.func_name, h.func_sig, sameSignature_relaid h]

theorem Item.checked_relaid (h : s.Relaid s') (i : Item) : i.Checked s' ↔ i.Checked s := by
  cases i with
  | cls sc d c ms => exact Analysis.checked_relaid h
  | _ => exact Iff.rfl

/-- A method that is accepted overrides a method with its signature, or nothing. -/
theorem checked_checkOverride {base : ClassId} {m : Method} {x : PUnit}
    (h : Accepts (checkOverride base m) pl st x st') :
    st' = st ∧ (st.store.classMember? base (st.store.func m.symbol).name = none ∨
      ∃ g, st.store.classMember? base (st.store.func m.symbol).name = some (.func g) ∧
        sameSignature st.store (st.store.func g).sig (st.store.func m.symbol).sig = true) := by
  refine ⟨accepts_checkOverride h, ?_⟩
  simp only [checkOverride, accepts_store_bind] at h
  split at h
  · next g hg =>
    refine .inr ⟨g, hg, ?_⟩
    split at h
    · simp at h
    · split at h
      · simp at h
      · simpa using (accepts_guard_last.mp h).1
  · simp at h
  · next hnone => exact .inl hnone

/-- Checks that leave the state alone and hold one by one hold of a whole list. -/
theorem accepts_forM_checks {ι : Type} {f : ι → Analysis PUnit} {P : ι → Prop} {xs : List ι} {x : PUnit}
    (hf : ∀ y {st'}, Accepts (f y) pl st () st' → st' = st ∧ P y) (h : Accepts (xs.forM f) pl st x st') :
    st' = st ∧ ∀ y ∈ xs, P y := by
  induction xs with
  | nil => exact ⟨accepts_forM_nil.mp h, by simp⟩
  | cons y ys ih =>
    obtain ⟨st₁, h₁, h₂⟩ := accepts_forM_cons.mp h
    obtain ⟨rfl, hy⟩ := hf y h₁
    obtain ⟨rfl, hys⟩ := ih h₂
    exact ⟨rfl, List.forall_mem_cons.mpr ⟨hy, hys⟩⟩

/-- A class that is accepted has checked methods, and is laid out. -/
theorem checked_checkClass {d : Tree.ClassDecl} {c : ClassId} {ms : List Method} {x : PUnit}
    (h : Accepts (checkClass d c ms) pl st x st') : Checked st.store c ms ∧ st'.store = (Store.layout c st.store).2 := by
  have hlast : ∀ {st₁}, Accepts (do
      symbols (Store.layout c)
      ((← store).conformance c).forM fun e => report d.span (.conformance e)) pl st₁ x st' →
      st'.store = (Store.layout c st₁.store).2 := by
    intro st₁ h
    obtain ⟨_, st₂, h₁, h₂⟩ := accepts_bind.mp h
    obtain ⟨-, rfl⟩ := accepts_symbols.mp h₁
    rw [accepts_store_bind] at h₂
    obtain ⟨rfl, -⟩ := accepts_forM_checks (P := fun _ => True) (fun e {st'} h => absurd h accepts_report) h₂
    rfl
  simp only [checkClass, accepts_store_bind] at h
  split at h
  · next base hbase =>
    obtain ⟨_, st₁, h₁, h₂⟩ := accepts_bind.mp h
    obtain ⟨_, st₂, h₃, h₄⟩ := accepts_bind.mp h₂
    obtain ⟨rfl, hchecked⟩ := accepts_forM_checks (fun m {st'} h => checked_checkOverride h) h₁
    obtain ⟨rfl, -⟩ := accepts_forM_checks (P := fun _ => True) (fun f {st'} h => by
      split at h
      · simp at h
      · exact ⟨(accepts_pure.mp h).2, trivial⟩) h₃
    refine ⟨fun b hb => ?_, hlast h₄⟩
    obtain rfl : base = b := Option.some.inj (hbase.symm.trans hb)
    exact hchecked
  · next hnone =>
    obtain ⟨_, st₁, h₁, h₂⟩ := accepts_bind.mp h
    obtain ⟨rfl, -⟩ := accepts_forM_checks (P := fun _ => True) (fun m {st'} h =>
      ⟨(accepts_pure.mp (accepts_guard_last.mp h).2).2, trivial⟩) h₁
    refine ⟨fun b hb => ?_, hlast h₂⟩
    rw [Store.Derives, hnone] at hb
    cases hb

theorem store_analyzeMethod {cls : Option ClassId} {m r : Method}
    (h : Accepts (analyzeMethod cls m) pl ⟨s, []⟩ r st') : st'.store = s := by
  cases hbody : m.decl.body with
  | none =>
    rw [analyzeMethod, hbody] at h
    obtain ⟨-, rfl⟩ := accepts_pure.mp h
    rfl
  | some block => exact (trusted_analyzeMethod (by rw [hbody]; rfl) h).1

theorem store_methods {cls : Option ClassId} {ms rs : List Method} (h : InTurn (MethodRun cls) ms s rs s') : s' = s := by
  induction h with
  | nil => rfl
  | cons head tail ih =>
    obtain ⟨pl, st, hm, rfl⟩ := head
    exact ih.trans (store_analyzeMethod hm)

/-- Analyzing the bodies of a declaration checks and lays out its class. -/
theorem ItemRun.checked {i r : Item} (h : ItemRun i s r s') : s' = s.layouts i.classes ∧ i.Checked s := by
  cases h with
  | func method =>
    obtain ⟨pl, st, hm, rfl⟩ := method
    exact ⟨store_analyzeMethod hm, trivial⟩
  | cls check methods =>
    obtain rfl := store_methods methods
    obtain ⟨hchecked, hlaid⟩ := checked_checkClass check
    exact ⟨hlaid, hchecked⟩
  | iface | declared _ => exact ⟨rfl, trivial⟩
  | initialized _ value => exact ⟨(trusted_analyzeInit value).1, trivial⟩

theorem checked_items {items rs : List Item} (h : InTurn ItemRun items s rs s') :
    s' = s.layouts (items.flatMap Item.classes) ∧ ∀ i ∈ items, i.Checked s := by
  induction h with
  | nil => exact ⟨rfl, by simp⟩
  | @cons i _ _ _ s _ _ head tail ih =>
    obtain ⟨rfl, hi⟩ := head.checked
    obtain ⟨hrest, hall⟩ := ih
    refine ⟨?_, List.forall_mem_cons.mpr ⟨hi, fun j hj => ?_⟩⟩
    · rw [List.flatMap_cons, Store.layouts_append]
      exact hrest
    · exact (Item.checked_relaid (Store.relaid_layouts i.classes s) j).mp (hall j hj)

/-- Analyzing the bodies of a unit lays out the classes that it declares, and all its declarations are checked. -/
theorem goes_bodies_checked (h : Goes (runPhase p .bodies) u s () u' s') :
    s' = s.layouts u.classes ∧ ∀ i ∈ u.items, i.Checked s := by
  rw [FileUnit.classes]
  cases hsrc : u.source with
  | fresh tree items imports =>
    obtain ⟨items', hitems, -⟩ := goes_bodies_fresh hsrc h
    rw [FileUnit.items_eq hsrc]
    exact checked_items hitems
  | cached record imports pending =>
    obtain ⟨-, rfl⟩ := goes_mapItems_cached hsrc h
    rw [FileUnit.items, hsrc]
    exact ⟨rfl, by simp⟩

/-- Analyzing the bodies of all units lays out the classes that they declare, and all declarations are checked. -/
theorem sweep_bodies_checked (h : Sweep p .bodies us s us' s') :
    s' = s.layouts (us.flatMap FileUnit.classes) ∧ ∀ i ∈ us.flatMap FileUnit.items, i.Checked s := by
  induction h with
  | nil => exact ⟨rfl, by simp⟩
  | @cons u us u' us' s s₁ s' head tail ih =>
    obtain ⟨rfl, hchecked⟩ := goes_bodies_checked head
    obtain ⟨hrest, hall⟩ := ih
    rw [List.flatMap_cons, List.flatMap_cons, List.forall_mem_append, Store.layouts_append]
    exact ⟨hrest, hchecked, fun j hj => (Item.checked_relaid (Store.relaid_layouts u.classes s) j).mp (hall j hj)⟩

end Checks

/-! ## Native classes -/

/-- Two signatures take and give the same types. -/
def SameTypes (x y : Option Signature) : Prop := x.map ({ · with defaults := 0 }) = y.map ({ · with defaults := 0 })

/-- What a host promises of the classes that it declares before an analysis. The hierarchy is acyclic, no superclass is
missing, and each class has its own members. No class is laid out yet, and a method takes and gives the same types as the
method of a superclass that it overrides. -/
structure Hosted (s : Store) : Prop where
  acyclic : s.Acyclic
  bounded : ∀ c b, s.Derives c b → b.index < s.classes.size
  declared : ∀ c, s.Declared c
  laidOut : ∀ c, (s.cls c).laidOut = false
  overrides : ∀ c b, s.Derives c b → ∀ n f, s.method? c n = some f → s.classMember? b n = none ∨
    ∃ g, s.classMember? b n = some (.func g) ∧ SameTypes (s.func g).sig (s.func f).sig

section Native

variable {a s s' : Store} {items : List Item} {c : ClassId}

theorem sameSignature_of_sameTypes {x y : Option Signature} (h : SameTypes x y) : sameSignature s x y = true := by
  have hname : ∀ sig : Signature, ({ sig with defaults := 0 } : Signature).typeName s = sig.typeName s := by
    rintro ⟨returns, params, defaults, coro⟩
    rw [Signature.typeName, Signature.typeName]
  cases x with
  | none =>
    cases y with
    | none => rfl
    | some y => cases h
  | some x =>
    cases y with
    | none => cases h
    | some y =>
      have heq : ({ x with defaults := 0 } : Signature) = { y with defaults := 0 } := Option.some.inj h
      simp only [sameSignature, decide_eq_true_eq]
      rw [← hname x, ← hname y, heq]

/-- A store without classes promises everything. -/
theorem hosted_of_no_classes (hc : s.classes = #[]) (hac : s.Acyclic) : Hosted s where
  acyclic := hac
  bounded c b hb := by
    rw [Store.Derives, Store.cls_of_size_le (by simp [hc])] at hb
    cases hb
  declared c := declared_of_size_le (by simp [hc])
  laidOut c := by
    rw [Store.cls_of_size_le (by simp [hc])]
    rfl
  overrides c b hb := by
    rw [Store.Derives, Store.cls_of_size_le (by simp [hc])] at hb
    cases hb

/-- The classes of a host are in a store as they were, whatever other classes there are. -/
structure Hosts (a s : Store) : Prop where
  count : a.classes.size ≤ s.classes.size
  super : ∀ c : ClassId, c.index < a.classes.size → (s.cls c).super = (a.cls c).super
  members : ∀ c : ClassId, c.index < a.classes.size → (s.cls c).members = (a.cls c).members

/-- A class of the host has the superclasses that it had. -/
theorem Hosts.lineage (h : Hosts a s) (ha : Hosted a) (hs : s.Acyclic) (hc : c.index < a.classes.size) :
    s.lineage c = a.lineage c ∧ ∀ d ∈ a.lineage c, d.index < a.classes.size := by
  induction c using hs.induction with
  | step c ih =>
    cases hb : (a.cls c).super with
    | none =>
      rw [Store.lineage_root hs ((h.super c hc).trans hb), Store.lineage_root ha.acyclic hb]
      exact ⟨rfl, by simpa using hc⟩
    | some b =>
      obtain ⟨heq, hall⟩ := ih b ((h.super c hc).trans hb) (ha.bounded c b hb)
      rw [Store.lineage_derives hs ((h.super c hc).trans hb), Store.lineage_derives ha.acyclic hb, heq]
      exact ⟨rfl, List.forall_mem_cons.mpr ⟨hc, hall⟩⟩

theorem Hosts.classMember? (h : Hosts a s) (ha : Hosted a) (hs : s.Acyclic) (hc : c.index < a.classes.size) (n : String) :
    s.classMember? c n = a.classMember? c n := by
  obtain ⟨hlineage, hall⟩ := h.lineage ha hs hc
  rw [Store.classMember?, Store.classMember?, hlineage]
  clear hlineage
  generalize a.lineage c = l at hall
  induction l with
  | nil => rfl
  | cons d l ih =>
    rw [List.forall_mem_cons] at hall
    rw [List.findSome?_cons, List.findSome?_cons, h.members d hall.1, ih hall.2]

theorem Completed.members (h : Completed a s s') (c : ClassId) : (s'.cls c).members = (s.cls c).members := by
  obtain ⟨_, _, hc⟩ := h.cls c
  rw [hc]

theorem Completed.declared (h : Completed a s s') (hd : s.Declared c) : s'.Declared c := by
  refine ⟨hd.toHouses.congr (h.members c) (fun f _ => ?_) fun x _ => ?_, fun n f he => ?_, h.members c ▸ hd.keys⟩
  · obtain ⟨_, hf⟩ := h.func f
    rw [hf]
  · obtain ⟨_, hx⟩ := h.field x
    rw [hx]
  · obtain ⟨_, hf⟩ := h.func f
    rw [h.members] at he
    rw [hf, ← hd.names n f he]

/-- The classes of a host are still there after an outline, and after types and bases were found. -/
theorem Adds.hosts (h : Adds a s items) (hcompleted : Completed a s s') : Hosts a s' where
  count := hcompleted.classCount ▸ h.stays.classCount
  super c hc := by rw [hcompleted.super c hc, h.stays.cls c hc]
  members c hc := by rw [hcompleted.members, h.stays.cls c hc]

/-- Neither new classes nor those of a host have a layout. -/
theorem Adds.unlaid (h : Adds a s items) (ha : Hosted a) (hcompleted : Completed a s s') (c : ClassId) :
    (s'.cls c).laidOut = false := by
  obtain ⟨_, _, hcls⟩ := hcompleted.cls c
  rw [hcls]
  by_cases hc : c.index < a.classes.size
  · rw [h.stays.cls c hc]
    exact ha.laidOut c
  · exact h.laidOut c (by omega)

/-- New classes whose declarations were checked are sound beside those of a host. -/
theorem Adds.wellLaid (h : Adds a s items) (ha : Hosted a) (hcompleted : Completed a s s') (hac : s'.Acyclic)
    (hchecked : ∀ i ∈ items, i.Checked s') : s'.WellLaid := by
  have hhosts := h.hosts hcompleted
  have hdeclared : ∀ c, s'.Declared c := by
    intro c
    refine hcompleted.declared ?_
    by_cases hc : c.index < a.classes.size
    · exact h.stays.declared (by rw [h.stays.cls c hc]) (ha.declared c)
    · exact h.declared c (by omega)
  refine ⟨⟨hac, hdeclared, fun c b hb n f hf => ?_⟩, fun c hc => ?_⟩
  · have hmem := (hdeclared c).mem_of_method? hf
    by_cases hc : c.index < a.classes.size
    · -- a class of the host
      have hb' : a.Derives c b := (hhosts.super c hc).symm.trans hb
      have hf' : a.method? c n = some f := by
        rw [Store.method?, ← hhosts.members c hc]
        exact hf
      rw [hhosts.classMember? ha hac (ha.bounded c b hb')]
      rcases ha.overrides c b hb' n f hf' with hnone | ⟨g, hg, hsame⟩
      · exact .inl hnone
      · have hsig : ∀ k : FuncId, k.index < a.funcs.size → (s'.func k).sig = (a.func k).sig := fun k hk => by
          rw [hcompleted.sig k hk, h.stays.func k hk]
        obtain ⟨d, -, hget⟩ := List.exists_of_findSome?_eq_some hg
        have hgd := (ha.declared d).funcs g (List.mem_map.mpr ⟨_, Table.get?_mem hget, rfl⟩)
        refine .inr ⟨g, hg, ?_⟩
        rw [hsig g (Store.func_inRange hgd), hsig f (Store.func_inRange ((ha.declared c).owner_of_method? hf'))]
        exact sameSignature_of_sameTypes hsame
    · by_cases hlt : c.index < s.classes.size
      · -- a new class, which comes with its declaration
        obtain ⟨i, hi, hlists⟩ := h.listed c (by omega) hlt
        cases i with
        | cls sc d e ms =>
          obtain ⟨rfl, hlists⟩ := hlists
          obtain ⟨m, hm, rfl⟩ := hlists f (hcompleted.members e ▸ hmem)
          have hok := hchecked _ hi b hb m hm
          rwa [(hdeclared e).name_of_method? hf] at hok
        | _ => exact hlists.elim
      · rw [Store.cls_of_size_le (hcompleted.classCount ▸ by omega)] at hmem
        cases hmem
  · refine Store.arranged_of_size_le (hc.resolve_left ?_)
    rw [h.unlaid ha hcompleted]
    exact Bool.false_ne_true

end Native

/-! ## Runs -/

section Runs

variable {p : Project} {us u₁ u₂ u₃ u₄ u₅ u₆ : List FileUnit} {s s₁ s₂ s₃ s₄ s₅ s₆ : Store}

/-- What accepted units leave before their bodies: a sound hierarchy in which nothing is laid out. -/
theorem wellLaid_before_bodies (hfresh : ∀ u ∈ us, u.IsFresh) (hs : Hosted s) (h₁ : Sweep p .outline us s u₁ s₁)
    (h₂ : Sweep p .linkImports u₁ s₁ u₂ s₂) (h₃ : Sweep p .addImports u₂ s₂ u₃ s₃) (h₄ : Sweep p .types u₃ s₃ u₄ s₄)
    (h₅ : Sweep p .bases u₄ s₄ u₅ s₅) (h₆ : Sweep p .bodies u₅ s₅ u₆ s₆) :
    s.SameBases s₄ ∧ s₅.Acyclic ∧ s₅.WellLaid ∧ (∀ c, (s₅.cls c).laidOut = false) ∧
      u₄.flatMap FileUnit.items = u₁.flatMap FileUnit.items := by
  obtain ⟨hadds, hfresh₁⟩ := sweep_outline_adds hfresh h₁
  -- types and bases are found for the declarations of the outline
  obtain ⟨hc₂, hfresh₂, hi₂⟩ := sweep_completed (by simp) hfresh₁ hadds.after h₂
  obtain ⟨hc₃, hfresh₃, hi₃⟩ := sweep_completed (by simp) hfresh₂ (hi₂ ▸ hadds.after) h₃
  obtain ⟨hc₄, hfresh₄, hi₄⟩ := sweep_completed (by simp) hfresh₃ ((hi₃.trans hi₂) ▸ hadds.after) h₄
  obtain ⟨hc₅, -, hi₅⟩ := sweep_completed (by simp) hfresh₄ ((hi₄.trans (hi₃.trans hi₂)) ▸ hadds.after) h₅
  obtain ⟨-, hchecked⟩ := sweep_bodies_checked h₆
  rw [hi₅, hi₄, hi₃, hi₂] at hchecked
  have hcompleted := ((hc₂.trans hc₃).trans hc₄).trans hc₅
  -- the hierarchy stays acyclic
  have hbases := ((h₁.moves (movesUnit_before (by simp)) hfresh).1.trans
    (h₂.moves (movesUnit_before (by simp)) hfresh₁).1).trans
    ((h₃.moves (movesUnit_before (by simp)) hfresh₂).1.trans (h₄.moves (movesUnit_before (by simp)) hfresh₃).1)
  have hac := acyclic_of_links (h₅.moves movesUnit_bases hfresh₄).1 (hbases.acyclic hs.acyclic)
  exact ⟨hbases, hac, hadds.wellLaid hs hcompleted hac hchecked, hadds.unlaid hs hcompleted, hi₄.trans (hi₃.trans hi₂)⟩

end Runs

/-- **Layouts of accepted classes are coherent.** When fresh units are accepted, beside native classes that their host
declared soundly, every class has a layout that fits those of its superclasses: fields and methods stand where their
indexes say, those of the superclass come first, and a slot holds what a call through it has to reach. -/
theorem run_classes_coherent (registry : Registry) (resolver : Option Resolver) {units : List FileUnit} {s : Store}
    (hfresh : ∀ u ∈ units, u.IsFresh) (hwhole : ∀ u ∈ units, u.broken = false) (hs : Hosted s)
    (haccepted : ∀ u ∈ (run registry resolver units s).1, u.diags = []) (c : ClassId) :
    (run registry resolver units s).2.Coherent c := by
  have hclean : ∀ u ∈ units, u.Clean := fun u hu => ⟨quiet_of_foldlM haccepted u hu, hwhole u hu⟩
  obtain _ | ⟨h₁, _ | ⟨h₂, _ | ⟨h₃, _ | ⟨h₄, _ | ⟨h₅, _ | ⟨h₆, _ | ⟨h₇, h₈⟩⟩⟩⟩⟩⟩⟩ := sweeps_of_quiet hclean haccepted
  cases h₈
  obtain ⟨-, rfl⟩ := sweep_finalize h₇
  obtain ⟨-, -, hwell, -, -⟩ := wellLaid_before_bodies hfresh hs h₁ h₂ h₃ h₄ h₅ h₆
  rw [(sweep_bodies_checked h₆).1]
  exact (hwell.layouts _).wellLaid.coherent c

namespace Override

/-- A class with a field and methods, each with an empty body. -/
private def cls (name : String) (bases : List String) (field : String) (methods : List (Bool × Bool × String)) :
    Tree.Decl :=
  .cls { span := default, fileLocal := false, name, bases := bases.map fun b => .named default [b],
         fields := [{ span := default, type := .named default ["int"], name := field }],
         methods := methods.map fun (virtual, override, name) =>
           { span := default, fileLocal := false, coro := false, virtual, override, name, returns := [], params := [],
             body := some { span := default, stmts := [] } } }

/-- A unit of a class with two methods and of one that derives from it and overrides the first. -/
def unit : FileUnit :=
  .fresh "m.weft"
    { path := "m.weft", span := default, imports := [],
      decls := [cls "A" [] "x" [(true, false, "f"), (false, false, "g")], cls "B" ["A"] "y" [(false, true, "f")]] }
    Loop.start.1.2

/-- The store after an analysis of the unit. -/
def store : Store :=
  (run Loop.start.1.1 none [unit] Loop.start.2).2

end Override

/-- The derived class has the fields of both, its own method in the first slot, and the inherited one in the second. -/
theorem run_override_coherent :
    (∀ u ∈ [Override.unit], u.IsFresh) ∧ (∀ u ∈ [Override.unit], u.broken = false) ∧ Hosted Loop.start.2 ∧
      (∀ u ∈ (run Loop.start.1.1 none [Override.unit] Loop.start.2).1, u.diags = []) ∧
      Override.store.Coherent ⟨1⟩ ∧ (Override.store.cls ⟨1⟩).super = some ⟨0⟩ ∧
      (Store.fieldsOf ⟨1⟩ Override.store).1 = [⟨0⟩, ⟨1⟩] ∧ (Store.methodsOf ⟨0⟩ Override.store).1 = [⟨0⟩, ⟨1⟩] ∧
      (Store.methodsOf ⟨1⟩ Override.store).1 = [⟨2⟩, ⟨1⟩] := by
  have hfresh : ∀ u ∈ [Override.unit], u.IsFresh := by
    intro u hu
    obtain rfl := List.mem_singleton.mp hu
    exact ⟨_, _, _, rfl⟩
  have hwhole : ∀ u ∈ [Override.unit], u.broken = false := by
    intro u hu
    obtain rfl := List.mem_singleton.mp hu
    rfl
  have hclasses : Loop.start.2.classes = #[] := by decide +kernel
  have hinterfaces : Loop.start.2.interfaces = #[] := by decide +kernel
  have hacyclic : Loop.start.2.Acyclic := by
    apply Store.acyclic_of_no_bases
    · intro c
      rw [Store.cls, hclasses]
      rfl
    · intro i
      rw [Store.iface, hinterfaces]
      rfl
  have hosted := hosted_of_no_classes hclasses hacyclic
  have haccepted : ∀ u ∈ (run Loop.start.1.1 none [Override.unit] Loop.start.2).1, u.diags = [] := by decide +kernel
  refine ⟨hfresh, hwhole, hosted, haccepted,
    run_classes_coherent Loop.start.1.1 none hfresh hwhole hosted haccepted ⟨1⟩, ?_⟩
  decide +kernel

end Analysis

end Weft
