import Weft.Proofs.Analysis.ModuleNames
import Weft.Proofs.Analysis.OwnFunctions
import Weft.Proofs.Symbol.Located

/-!
# Qualified names of functions

An outline declares the functions of a unit in the root namespace of its module, each where its qualified name says, and
the later phases leave the names alone. So where modules have different names, functions of one module have different
qualified names.
-/

namespace Weft.Analysis

open Store (Continues Spelled)

/-! ## Outlines -/

/-- Symbols are declared for a module, and among them exactly some functions, in the order of their identities. -/
structure Outlines (named : Prop) (module : String) (a : Sym) (path : List String) (s s' : Store) (fs : List FuncId) : Prop
    extends Store.Declares named module a path s s' where
  size : s'.funcs.size = s.funcs.size + fs.length
  ids : fs.map (·.index) = List.range' s.funcs.size fs.length

section Outlines

variable {named named' : Prop} {module name : String} {a b : Sym} {path names : List String} {s s' s'' : Store}
  {f : FuncId} {fs gs : List FuncId}

namespace Outlines

theorem none (h : s.Continues s') (hfuncs : s'.funcs.size = s.funcs.size) : Outlines named module a path s s' [] :=
  ⟨h.declares hfuncs, hfuncs, rfl⟩

theorem trans (h : Outlines named module a path s s' fs) (h' : Outlines named module a path s' s'' gs) :
    Outlines named module a path s s'' (fs ++ gs) where
  toDeclares := h.toDeclares.trans h'.toDeclares
  size := by rw [h'.size, h.size, List.length_append, Nat.add_assoc]
  ids := by rw [List.map_append, h.ids, h'.ids, h.size, List.length_append, List.range'_append_1]

theorem mono (h : Outlines named module a path s s' fs) (hnamed : named' → named) : Outlines named' module a path s s' fs :=
  ⟨h.toDeclares.mono hnamed, h.size, h.ids⟩

theorem within (h : Outlines named module b (path ++ names) s s' fs) (hb : s'.locate? a names = some b)
    (hnames : named → ∀ x ∈ names, Dotless x) : Outlines named module a path s s' fs :=
  ⟨h.toDeclares.within hb hnames, h.size, h.ids⟩

theorem under (h : Outlines named module b (path ++ [name]) s s' fs) (hb : (s'.membersOf a).get? name = some b)
    (hname : named → Dotless name) : Outlines named module a path s s' fs :=
  ⟨h.toDeclares.under hb hname, h.size, h.ids⟩

theorem one {x : Func} (h : s.Enters a x s') (hpath : x.path = pathName path) (hmodule : x.module = module)
    (hnative : x.native = false) (hname : named → Dotless x.name) :
    Outlines named module a path s s' [⟨s.funcs.size⟩] :=
  ⟨.one h hpath hmodule hnative hname, h.size.trans size_addFunc, rfl⟩

theorem nodup (h : Outlines named module a path s s' fs) : fs.Nodup :=
  List.Nodup.of_map (·.index) (h.ids ▸ List.nodup_range')

end Outlines

end Outlines

section Outline

variable {named : Prop} {module : String} {path : List String} {pl : Place} {st st' : State} {sc : Scope} {n : NamespaceId}

/-! ### Methods -/

theorem outlines_outlineFunc {d : Tree.FuncDecl} {r : Option Item} (h : Accepts (outlineFunc module sc d) pl st r st')
    (hn : sc.own.index < st.store.spaces.size) (hpath : (st.store.space sc.own).path = pathName path) :
    Outlines (Dotless d.name) module (.space sc.own) path st.store st'.store (r.toList.flatMap Item.symbols) := by
  simp only [outlineFunc, accepts_guard, accepts_store_bind] at h
  obtain ⟨f, st₁, hf, h⟩ := accepts_bind.mp h.2
  obtain ⟨rfl, rfl⟩ := accepts_symbols.mp hf
  obtain ⟨ok, st₂, hok, h⟩ := accepts_bind.mp h
  obtain ⟨rfl, ⟨v, hv⟩, rfl⟩ := accepts_unique.mp hok
  rw [if_pos rfl] at h
  obtain ⟨rfl, rfl⟩ := accepts_pure.mp h
  exact .one (Store.enters_define hv hn) hpath rfl rfl id

theorem outlines_outlineMethods {c : ClassId} {ds : List Tree.FuncDecl} {ms : List Method}
    (h : Accepts (outlineMethods module (pathName path) c ds) pl st ms st') (hc : c.index < st.store.classes.size) :
    Outlines (∀ d ∈ ds, Dotless d.name) module (.cls c) path st.store st'.store (ms.map (·.symbol)) := by
  induction ds generalizing st ms with
  | nil =>
    obtain ⟨rfl, rfl⟩ := accepts_pure.mp h
    exact .none (.refl _) rfl
  | cons d ds ih =>
    simp only [outlineMethods, accepts_guard] at h
    obtain ⟨f, st₁, hf, h⟩ := accepts_bind.mp h.2
    obtain ⟨rfl, rfl⟩ := accepts_symbols.mp hf
    obtain ⟨ok, st₂, hok, h⟩ := accepts_bind.mp h
    obtain ⟨rfl, ⟨v, hv⟩, rfl⟩ := accepts_unique.mp hok
    obtain ⟨more, st₃, hmore, h⟩ := accepts_bind.mp h
    obtain ⟨rfl, rfl⟩ := accepts_pure.mp h
    have hfirst : Outlines (∀ d' ∈ d :: ds, Dotless d'.name) module (.cls c) path st.store _ [⟨st.store.funcs.size⟩] :=
      .one (Store.enters_defineMember hv hc) rfl rfl rfl fun hn => hn d List.mem_cons_self
    have hrest := ih hmore (Nat.lt_of_lt_of_le hc (hfirst.below .cls))
    exact hfirst.trans (hrest.mono fun hn d' hd' => hn d' (List.mem_cons_of_mem _ hd'))

theorem outlines_outlineSignatures {i : InterfaceId} {ds : List Tree.FuncDecl} {ms : List Method}
    (h : Accepts (outlineSignatures module (pathName path) i ds) pl st ms st') (hi : i.index < st.store.interfaces.size) :
    Outlines (∀ d ∈ ds, Dotless d.name) module (.iface i) path st.store st'.store (ms.map (·.symbol)) := by
  induction ds generalizing st ms with
  | nil =>
    obtain ⟨rfl, rfl⟩ := accepts_pure.mp h
    exact .none (.refl _) rfl
  | cons d ds ih =>
    simp only [outlineSignatures] at h
    obtain ⟨f, st₁, hf, h⟩ := accepts_bind.mp h
    obtain ⟨rfl, rfl⟩ := accepts_symbols.mp hf
    obtain ⟨ok, st₂, hok, h⟩ := accepts_bind.mp h
    obtain ⟨rfl, ⟨v, hv⟩, rfl⟩ := accepts_unique.mp hok
    obtain ⟨more, st₃, hmore, h⟩ := accepts_bind.mp h
    obtain ⟨rfl, rfl⟩ := accepts_pure.mp h
    have hfirst : Outlines (∀ d' ∈ d :: ds, Dotless d'.name) module (.iface i) path st.store _ [⟨st.store.funcs.size⟩] :=
      .one (Store.enters_defineSignature hv hi) rfl rfl rfl fun hn => hn d List.mem_cons_self
    have hrest := ih hmore (Nat.lt_of_lt_of_le hi (hfirst.below .iface))
    exact hfirst.trans (hrest.mono fun hn d' hd' => hn d' (List.mem_cons_of_mem _ hd'))

/-! ### Declarations -/

/-- The fields of a class are no functions. -/
theorem continues_outlineFields {c : ClassId} {fs : List Tree.FieldDecl} {v : PUnit}
    (h : Accepts (fs.forM fun f => do
      let field ← symbols <| Store.addField { name := f.name, type := none, owner := none, index := -1, native := false }
      let _ ← unique f.span (Store.defineMember c (.field field))) pl st v st') (hc : c.index < st.store.classes.size) :
    st.store.Continues st'.store ∧ st'.store.funcs.size = st.store.funcs.size := by
  refine accepts_forM (R := fun st₁ st₂ => c.index < st₁.store.classes.size →
      st₁.store.Continues st₂.store ∧ st₂.store.funcs.size = st₁.store.funcs.size)
    (fun _ _ => ⟨.refl _, rfl⟩) (fun h h' hc => ?_) (fun f st₁ st₂ h hc => ?_) h hc
  · obtain ⟨hcont, hsize⟩ := h hc
    obtain ⟨hcont', hsize'⟩ := h' (Nat.lt_of_lt_of_le hc (hcont.below .cls))
    exact ⟨hcont.trans hcont', hsize'.trans hsize⟩
  · obtain ⟨y, st₃, hy, h⟩ := accepts_bind.mp h
    obtain ⟨rfl, rfl⟩ := accepts_symbols.mp hy
    obtain ⟨ok, st₄, hok, h⟩ := accepts_bind.mp h
    obtain ⟨rfl, ⟨v, hv⟩, rfl⟩ := accepts_unique.mp hok
    obtain ⟨-, rfl⟩ := accepts_pure.mp h
    obtain ⟨hcont, hsize, -⟩ := Store.continues_defineMember hv hc
    exact ⟨Store.continues_addField.trans hcont, hsize⟩

theorem outlines_outlineClass {d : Tree.ClassDecl} {r : Option Item} (h : Accepts (outlineClass module sc d) pl st r st')
    (hn : sc.own.index < st.store.spaces.size) (hpath : (st.store.space sc.own).path = pathName path) :
    Outlines (Dotless d.name ∧ ∀ m ∈ d.methods, Dotless m.name) module (.space sc.own) path st.store st'.store
      (r.toList.flatMap Item.symbols) := by
  simp only [outlineClass, accepts_store_bind] at h
  obtain ⟨c, st₁, hc, h⟩ := accepts_bind.mp h
  obtain ⟨rfl, rfl⟩ := accepts_symbols.mp hc
  obtain ⟨ok, st₂, hok, h⟩ := accepts_bind.mp h
  obtain ⟨rfl, ⟨v, hv⟩, rfl⟩ := accepts_unique.mp hok
  rw [if_pos rfl] at h
  obtain ⟨_, st₃, hfields, h⟩ := accepts_bind.mp h
  obtain ⟨ms, st₄, hms, h⟩ := accepts_bind.mp h
  obtain ⟨rfl, rfl⟩ := accepts_pure.mp h
  have htype : (Class.bare d.name (st.store.space sc.own).path module d.fileLocal).typeName = pathName (path ++ [d.name]) := by
    rw [hpath, Store.pathName_concat]
    rfl
  rw [htype] at hms
  obtain ⟨henter, hfuncs, hroom, hget⟩ := Store.continues_defineClass hv hn rfl
  obtain ⟨hcont, hsize⟩ := continues_outlineFields hfields hroom
  have hmethods := outlines_outlineMethods hms (Nat.lt_of_lt_of_le hroom (hcont.below .cls))
  have hclass := Outlines.trans (.none (henter.trans hcont) (hsize.trans (congrArg Array.size hfuncs))) hmethods
  have hfound := hmethods.members (hcont.members hget)
  have hall := (hclass.mono And.right).under hfound And.left
  simpa [Item.symbols, Item.methods] using hall

theorem outlines_outlineInterface {d : Tree.InterfaceDecl} {r : Option Item}
    (h : Accepts (outlineInterface module sc d) pl st r st') (hn : sc.own.index < st.store.spaces.size)
    (hpath : (st.store.space sc.own).path = pathName path) :
    Outlines (Dotless d.name ∧ ∀ m ∈ d.methods, Dotless m.name) module (.space sc.own) path st.store st'.store
      (r.toList.flatMap Item.symbols) := by
  simp only [outlineInterface, accepts_store_bind] at h
  obtain ⟨i, st₁, hi, h⟩ := accepts_bind.mp h
  obtain ⟨rfl, rfl⟩ := accepts_symbols.mp hi
  obtain ⟨ok, st₂, hok, h⟩ := accepts_bind.mp h
  obtain ⟨rfl, ⟨v, hv⟩, rfl⟩ := accepts_unique.mp hok
  rw [if_pos rfl] at h
  obtain ⟨ms, st₃, hms, h⟩ := accepts_bind.mp h
  obtain ⟨rfl, rfl⟩ := accepts_pure.mp h
  have htype : ({ name := d.name, path := (st.store.space sc.own).path, module, bases := [], members := .empty } :
      Interface).typeName = pathName (path ++ [d.name]) := by
    rw [hpath, Store.pathName_concat]
    rfl
  rw [htype] at hms
  obtain ⟨henter, hfuncs, hroom, hget⟩ := Store.continues_defineInterface hv hn rfl
  have hmethods := outlines_outlineSignatures hms hroom
  have hclass := Outlines.trans (.none henter (congrArg Array.size hfuncs)) hmethods
  have hall := (hclass.mono And.right).under (hmethods.members hget) And.left
  simpa [Item.symbols, Item.methods] using hall

/-- Nothing that is declared is a function. -/
structure Funcless (s s' : Store) : Prop where
  continues : s.Continues s'
  size : s'.funcs.size = s.funcs.size

theorem Funcless.trans {s s' s'' : Store} (h : Funcless s s') (h' : Funcless s' s'') : Funcless s s'' :=
  ⟨h.continues.trans h'.continues, h'.size.trans h.size⟩

theorem funcless_outlineEnum {d : Tree.EnumDecl} {v : PUnit} (h : Accepts (outlineEnum module sc d) pl st v st')
    (hn : sc.own.index < st.store.spaces.size) : Funcless st.store st'.store := by
  simp only [outlineEnum, accepts_store_bind] at h
  obtain ⟨e, st₁, he, h⟩ := accepts_bind.mp h
  obtain ⟨rfl, rfl⟩ := accepts_symbols.mp he
  obtain ⟨ok, st₂, hok, h⟩ := accepts_bind.mp h
  obtain ⟨rfl, ⟨v, hv⟩, rfl⟩ := accepts_unique.mp hok
  rw [if_pos rfl] at h
  obtain ⟨hdefine, -, hfuncs⟩ := Store.continues_define hv hn (fun _ h => by cases h)
  have hfirst : Funcless st.store _ := ⟨Store.continues_addEnum.trans hdefine, congrArg Array.size hfuncs⟩
  refine hfirst.trans (accepts_forM (R := fun st₁ st₂ => Funcless st₁.store st₂.store) (fun _ => ⟨.refl _, rfl⟩) .trans
    (fun i st₁ st₂ h => ?_) h)
  obtain ⟨r, st₃, hr, h⟩ := accepts_bind.mp h
  obtain ⟨rfl, rfl⟩ := accepts_symbols.mp hr
  split at h
  · obtain ⟨-, rfl⟩ := accepts_pure.mp h
    exact ⟨Store.continues_addItem.1, congrArg Array.size Store.continues_addItem.2⟩
  · simp at h

theorem funcless_outlineGlobal {d : Tree.VarDecl} {r : Option Item} (h : Accepts (outlineGlobal sc d) pl st r st')
    (hn : sc.own.index < st.store.spaces.size) : Funcless st.store st'.store ∧ r.toList.flatMap Item.symbols = [] := by
  unfold outlineGlobal at h
  split at h
  · simp at h
  · simp only [accepts_store_bind] at h
    obtain ⟨g, st₁, hg, h⟩ := accepts_bind.mp h
    obtain ⟨rfl, rfl⟩ := accepts_symbols.mp hg
    obtain ⟨ok, st₂, hok, h⟩ := accepts_bind.mp h
    obtain ⟨rfl, ⟨v, hv⟩, rfl⟩ := accepts_unique.mp hok
    rw [if_pos rfl] at h
    obtain ⟨rfl, rfl⟩ := accepts_pure.mp h
    obtain ⟨hdefine, -, hfuncs⟩ := Store.continues_define hv hn (fun _ h => by cases h)
    exact ⟨⟨Store.continues_addGlobal.trans hdefine, congrArg Array.size hfuncs⟩, rfl⟩
  · simp at h

/-- The namespace of a dotted name is found by it. -/
theorem accepts_childSpace {span : Span} {n : NamespaceId} {names : List String} {o : Option NamespaceId}
    (h : Accepts (childSpace span n names) pl st o st') (hn : n.index < st.store.spaces.size) (hs : st.store.Pathed)
    (hpath : (st.store.space n).path = pathName path) :
    ∃ c, o = some c ∧ Funcless st.store st'.store ∧ st'.store.locate? (.space n) names = some (.space c) ∧
      c.index < st'.store.spaces.size ∧ (st'.store.space c).path = pathName (path ++ names) := by
  induction names generalizing n st path with
  | nil =>
    obtain ⟨rfl, rfl⟩ := accepts_pure.mp h
    exact ⟨n, rfl, ⟨.refl _, rfl⟩, rfl, hn, by rw [hpath, List.append_nil]⟩
  | cons name names ih =>
    obtain ⟨r, st₁, hr, h⟩ := accepts_bind.mp h
    obtain ⟨rfl, rfl⟩ := accepts_symbols.mp hr
    split at h
    · next c hc =>
      obtain ⟨hcont, hget, hroom, hchild, hfuncs⟩ := Store.continues_child hc hn hs
      rw [hpath, ← Store.pathName_concat] at hchild
      obtain ⟨d, rfl, hrest, hfound, hroom', hpath'⟩ := ih h hroom (hcont.pathed hs) hchild
      refine ⟨d, rfl, Funcless.trans ⟨hcont, congrArg Array.size hfuncs⟩ hrest, ?_, hroom', by rw [hpath', List.append_assoc]; rfl⟩
      rw [Store.locate?_cons, hrest.continues.members hget]
      exact hfound
    · simp at h

mutual

theorem outlines_outlineDecl {module : String} {pl : Place} {path : List String} {sc : Scope} {st st' : State} :
    (d : Tree.Decl) → {r : List Item} → Accepts (outlineDecl module sc d) pl st r st' → st.store.Pathed →
      sc.own.index < st.store.spaces.size → (st.store.space sc.own).path = pathName path →
      Outlines d.Named module (.space sc.own) path st.store st'.store (r.flatMap Item.symbols)
  | .space span names decls, r, h, hs, hn, hpath => by
    rw [outlineDecl] at h
    obtain ⟨o, st₁, ho, h⟩ := accepts_bind.mp h
    obtain ⟨c, rfl, hspace, hfound, hroom, hchild⟩ := accepts_childSpace ho hn hs hpath
    have hown : (sc.nested c names).own = c := rfl
    have hdecls := outlines_outlineDecls decls h (hspace.continues.pathed hs) hroom hchild
    rw [hown] at hdecls
    have hall := Outlines.trans (.none hspace.continues hspace.size) hdecls
    rw [Tree.Decl.Named]
    exact (hall.mono And.right).within (hdecls.toContinues.locate? hfound) And.left
  | .func d, r, h, hs, hn, hpath => by
    rw [outlineDecl] at h
    obtain ⟨o, st₁, ho, h⟩ := accepts_bind.mp h
    obtain ⟨rfl, rfl⟩ := accepts_pure.mp h
    exact outlines_outlineFunc ho hn hpath
  | .cls d, r, h, hs, hn, hpath => by
    rw [outlineDecl] at h
    obtain ⟨o, st₁, ho, h⟩ := accepts_bind.mp h
    obtain ⟨rfl, rfl⟩ := accepts_pure.mp h
    exact (outlines_outlineClass ho hn hpath).mono fun hd => ⟨hd.1, hd.2.2⟩
  | .iface d, r, h, hs, hn, hpath => by
    rw [outlineDecl] at h
    obtain ⟨o, st₁, ho, h⟩ := accepts_bind.mp h
    obtain ⟨rfl, rfl⟩ := accepts_pure.mp h
    exact outlines_outlineInterface ho hn hpath
  | .enumeration d, r, h, hs, hn, hpath => by
    rw [outlineDecl] at h
    obtain ⟨o, st₁, ho, h⟩ := accepts_bind.mp h
    obtain ⟨rfl, rfl⟩ := accepts_pure.mp h
    have hnone := funcless_outlineEnum ho hn
    exact .none hnone.continues hnone.size
  | .var d, r, h, hs, hn, hpath => by
    rw [outlineDecl] at h
    obtain ⟨o, st₁, ho, h⟩ := accepts_bind.mp h
    obtain ⟨rfl, rfl⟩ := accepts_pure.mp h
    obtain ⟨hnone, hr⟩ := funcless_outlineGlobal ho hn
    rw [hr]
    exact .none hnone.continues hnone.size

/-- Declarations declare their functions in the namespace that they stand in. -/
theorem outlines_outlineDecls {module : String} {pl : Place} {path : List String} {sc : Scope} {st st' : State} :
    (ds : List Tree.Decl) → {r : List Item} → Accepts (outlineDecls module sc ds) pl st r st' → st.store.Pathed →
      sc.own.index < st.store.spaces.size → (st.store.space sc.own).path = pathName path →
      Outlines (Tree.namedDecls ds) module (.space sc.own) path st.store st'.store (r.flatMap Item.symbols)
  | [], r, h, hs, hn, hpath => by
    rw [outlineDecls] at h
    obtain ⟨rfl, rfl⟩ := accepts_pure.mp h
    exact .none (.refl _) rfl
  | d :: ds, r, h, hs, hn, hpath => by
    rw [outlineDecls] at h
    obtain ⟨items, st₁, hitems, h⟩ := accepts_bind.mp h
    obtain ⟨more, st₂, hmore, h⟩ := accepts_bind.mp h
    obtain ⟨rfl, rfl⟩ := accepts_pure.mp h
    have hfirst := outlines_outlineDecl d hitems hs hn hpath
    have hcont := hfirst.toContinues
    have hrest := outlines_outlineDecls ds hmore (hcont.pathed hs) (Nat.lt_of_lt_of_le hn (hcont.below .space))
      ((hcont.space sc.own hn).2.trans hpath)
    rw [List.flatMap_append]
    exact (hfirst.mono And.left).trans (hrest.mono And.right)

end

end Outline

/-! ## Units -/

/-- The names that a unit declares have no points. -/
def FileUnit.Plain (u : FileUnit) : Prop :=
  match u.source with
  | .fresh tree _ _ => Tree.namedDecls tree.decls
  | .cached record _ _ => namedRecords record.members

/-- The module of a unit has a root namespace of its own in the store. -/
structure Rooted (s : Store) (u : FileUnit) : Prop where
  room : u.module.space.index < s.spaces.size
  path : (s.space u.module.space).path = ""

/-- A function of the module of a unit. If the names that the unit declares have no points, it is declared where its qualified
name says. -/
structure Belongs (s : Store) (u : FileUnit) (f : FuncId) : Prop where
  module : (s.func f).module = u.module.name
  native : (s.func f).native = false
  spelled : u.Plain → s.Spelled (.space u.module.space) [] f

section Units

variable {p : Project} {ph : Phase} {us us' : List FileUnit} {u u' : FileUnit} {s s' s'' : Store} {f : FuncId}

theorem Rooted.continues (h : Rooted s u) (hcont : s.Continues s') : Rooted s' u :=
  ⟨Nat.lt_of_lt_of_le h.room (hcont.below .space), (hcont.space _ h.room).2.trans h.path⟩

theorem Belongs.continues (h : Belongs s u f) (hcont : s.Continues s') (hf : f.index < s.funcs.size) : Belongs s' u f := by
  obtain ⟨-, hmodule, hnative⟩ := Func.title_eq (hcont.title f hf)
  exact ⟨hmodule.trans h.module, hnative.trans h.native, fun hu => hcont.spelled hf (h.spelled hu)⟩

theorem continues_indexGlobals (m : Module) (items : List Item) (s : Store) :
    s.Continues (indexGlobals m items s).2 ∧ (indexGlobals m items s).2.funcs = s.funcs := by
  induction items generalizing m s with
  | nil => exact ⟨.refl s, rfl⟩
  | cons i items ih =>
    cases i with
    | global sc d type g init =>
      obtain ⟨hcont, hfuncs⟩ := ih { m with globals := m.globals ++ [some g] }
        (Store.updateGlobal g ({ · with module := m.name, index := m.globals.length }) s).2
      exact ⟨Store.continues_updateGlobal.trans hcont, hfuncs⟩
    | _ => exact ih _ _

/-- A unit declares its functions in the root namespace of its module, and those of a file are different. -/
theorem declares_outline (h : Goes outline u s () u' s') (hs : s.Pathed) (hu : Rooted s u) :
    Store.Declares u.Plain u.module.name (.space u.module.space) [] s s' ∧ (u'.IsFresh → u'.own.Nodup) := by
  cases hsrc : u.source with
  | fresh tree items imports =>
    obtain ⟨items', st, hitems, rfl, rfl⟩ := goes_outline_fresh hsrc h
    have hpath : (s.space u.module.space).path = pathName [] := hu.path
    have hall := outlines_outlineDecls tree.decls hitems hs hu.room hpath
    obtain ⟨hcont, hfuncs⟩ := continues_indexGlobals u.module items' st.store
    refine ⟨?_, fun _ => hall.nodup⟩
    rw [FileUnit.Plain, hsrc]
    exact hall.toDeclares.trans (hcont.declares (congrArg Array.size hfuncs))
  | cached record imports pending =>
    obtain ⟨pending', hdeclare, rfl, rfl⟩ := goes_outline_cached hsrc h
    rw [FileUnit.Plain, hsrc]
    exact ⟨Module.declares_declare hdeclare hu.room hu.path, fun ⟨_, _, _, hfresh⟩ => nomatch hfresh⟩

/-- The functions of a unit: they are new in a store, and those of its module. -/
structure OwnFuncs (s s' : Store) (u : FileUnit) : Prop where
  nodup : u.IsFresh → u.own.Nodup
  new : ∀ f ∈ u.own, s.funcs.size ≤ f.index ∧ f.index < s'.funcs.size
  module : ∀ f ∈ u.own, (s'.func f).module = u.module.name

/-- Every function that an outline makes belongs to a unit, and the functions of each unit do to this unit. -/
theorem belongs_outline (h : Sweep p .outline us s us' s') (hs : s.Pathed) (hus : ∀ u ∈ us, Rooted s u) :
    s.Continues s' ∧ (∀ f : FuncId, s.funcs.size ≤ f.index → f.index < s'.funcs.size → ∃ u ∈ us, Belongs s' u f) ∧
      ∀ u' ∈ us', OwnFuncs s s' u' := by
  induction h with
  | nil => exact ⟨.refl _, fun f hf hf' => absurd hf' (Nat.not_lt_of_le hf), by simp⟩
  | @cons u u' us us' s s₁ s' head _ ih =>
    obtain ⟨hdeclares, hnodup⟩ := declares_outline head hs (hus u List.mem_cons_self)
    have hcont := hdeclares.toContinues
    obtain ⟨hcont', hrest, hown⟩ := ih (hcont.pathed hs) fun v hv => (hus v (List.mem_cons_of_mem _ hv)).continues hcont
    have hnew := (newFuncs_outline head).new
    have hgrown := hcont.below .func
    have hgrown' := hcont'.below .func
    refine ⟨hcont.trans hcont', fun f hf hf' => ?_, List.forall_mem_cons.mpr ⟨⟨hnodup, fun f hf => ?_, fun f hf => ?_⟩, ?_⟩⟩
    · by_cases hlt : f.index < s₁.funcs.size
      · obtain ⟨hmodule, hnative, hspelled⟩ := hdeclares.new f hf hlt
        have hbelongs : Belongs s₁ u f := ⟨hmodule, hnative, hspelled⟩
        exact ⟨u, List.mem_cons_self, hbelongs.continues hcont' hlt⟩
      · obtain ⟨v, hv, hbelongs⟩ := hrest f (Nat.le_of_not_lt hlt) hf'
        exact ⟨v, List.mem_cons_of_mem _ hv, hbelongs⟩
    · exact ⟨(hnew f hf).1, Nat.lt_of_lt_of_le (hnew f hf).2 hgrown'⟩
    · have hname : u'.module.name = u.module.name := by
        have hnamed := named_runPhase (p := p) .outline u s rfl
        rwa [head.result] at hnamed
      obtain ⟨-, hmodule, -⟩ := Func.title_eq (hcont'.title f (hnew f hf).2)
      rw [hmodule, hname]
      exact (hdeclares.new f (hnew f hf).1 (hnew f hf).2).1
    · intro v hv
      obtain ⟨hnodup, hnew', hmodule⟩ := hown v hv
      exact ⟨hnodup, fun f hf => ⟨hgrown.trans (hnew' f hf).1, (hnew' f hf).2⟩, hmodule⟩

end Units

/-! ## Later phases -/

/-- The functions are known by the same names. -/
structure SameTitles (s s' : Store) : Prop where
  size : s'.funcs.size = s.funcs.size
  title : ∀ f, (s'.func f).title = (s.func f).title

instance : Std.Refl SameTitles := ⟨fun _ => ⟨rfl, fun _ => rfl⟩⟩

instance : IsTrans Store SameTitles := ⟨fun _ _ _ h h' => ⟨h'.size.trans h.size, fun f => (h'.title f).trans (h.title f)⟩⟩

theorem sameTitles_of_funcs {s s' : Store} (h : s'.funcs = s.funcs) : SameTitles s s' :=
  ⟨by rw [h], fun f => by rw [Store.func, Store.func, h]⟩

theorem sameTitles_updateFunc {f : FuncId} {change : Func → Func} (h : ∀ x, (change x).title = x.title) :
    MovesSymbols SameTitles (Store.updateFunc f change) := by
  refine fun s => ⟨Array.size_modify .., fun g => ?_⟩
  rw [Store.func_updateFunc]
  split
  · exact h _
  · rfl

theorem sameTitles_index {f : FuncId} {index : Int} : MovesSymbols SameTitles (Store.updateFunc f ({ · with index })) :=
  sameTitles_updateFunc fun _ => rfl

theorem sameTitles_updateClass {c : ClassId} {change : Class → Class} :
    MovesSymbols SameTitles (Store.updateClass c change) := fun _ => sameTitles_of_funcs rfl

theorem movesSymbols_forM {R : Store → Store → Prop} [IsTrans Store R] [Std.Refl R] {ι : Type} {f : ι → Symbols PUnit}
    (xs : List ι) (hf : ∀ x, MovesSymbols R (f x)) : MovesSymbols R (xs.forM f) := by
  induction xs with
  | nil => exact movesSymbols_pure
  | cons x xs ih => exact (hf x).bind fun _ => ih

theorem sameTitles_layoutMember {c : ClassId} {sym : Sym} : MovesSymbols SameTitles (Store.layoutMember c sym) := by
  refine movesSymbols_get.bind fun s => ?_
  split
  · exact MovesSymbols.bind (fun _ => sameTitles_of_funcs rfl) fun _ => sameTitles_updateClass
  · split
    · exact sameTitles_index.bind fun _ => sameTitles_updateClass
    · exact sameTitles_index.bind fun _ => sameTitles_updateClass
  · exact movesSymbols_pure

theorem sameTitles_layoutChain {n : Nat} {c : ClassId} : MovesSymbols SameTitles (Store.layoutChain n c) := by
  induction n generalizing c with
  | zero => exact movesSymbols_pure
  | succ n ih =>
    have hmembers : MovesSymbols SameTitles (do ((← get).cls c).members.symbols.forM (Store.layoutMember c)) :=
      movesSymbols_get.bind fun s => movesSymbols_forM _ fun _ => sameTitles_layoutMember
    refine movesSymbols_get.bind fun s => ?_
    split
    · exact movesSymbols_pure
    · refine sameTitles_updateClass.bind fun _ => ?_
      split
      · refine movesSymbols_get.bind fun s => ?_
        split
        · refine ih.bind fun _ => movesSymbols_get.bind fun s => ?_
          exact sameTitles_updateClass.bind fun _ => hmembers
        · exact hmembers
      · exact hmembers

theorem sameTitles_layouts (cs : List ClassId) (s : Store) : SameTitles s (s.layouts cs) := by
  induction cs generalizing s with
  | nil => exact Std.Refl.refl _
  | cons c cs ih => exact IsTrans.trans _ _ _ ((movesSymbols_get.bind fun _ => sameTitles_layoutChain) s) (ih _)

theorem sameTitles_settle {n : NamespaceId} {ps : List Pending} : MovesSymbols SameTitles (Pending.settle n ps) := by
  induction ps with
  | nil => exact movesSymbols_pure
  | cons p ps ih =>
    rw [Pending.settle]
    refine movesSymbols_get.bind fun s => ?_
    split
    · refine MovesSymbols.bind (fun s => ?_) fun _ => ih
      unfold Pending.assign
      split
      case h_3 =>
        refine sameTitles_updateFunc ?_ s
        exact fun _ => rfl
      all_goals exact sameTitles_of_funcs rfl
    · exact ih.bind fun _ => movesSymbols_pure

theorem sameTitles_addImports {m : Module} {imports : List (String × NamespaceId)} :
    MovesSymbols SameTitles (m.addImports imports) := by
  induction imports generalizing m with
  | nil => exact movesSymbols_pure
  | cons i imports ih => exact (moves_addImport fun _ _ _ => sameTitles_of_funcs rfl).bind fun _ => ih

section Phases

variable {p : Project} {ph : Phase} {us us' : List FileUnit} {u u' : FileUnit} {s s' : Store} {x : PUnit}

/-- After the outline, the names of functions are left alone. -/
theorem sameTitles_runPhase (hph : ph ≠ .outline) (h : Goes (runPhase p ph) u s x u' s') : SameTitles s s' := by
  have hidle : ∀ {t t' : Store}, t'.funcs = t.funcs → SameTitles t t' := sameTitles_of_funcs
  cases hsrc : u.source with
  | fresh tree items imports =>
    have hfresh : u.IsFresh := ⟨tree, items, imports, hsrc⟩
    cases ph with
    | outline => exact absurd rfl hph
    | linkImports => exact (movesUnit_linkImports.goes hfresh h).1
    | addImports => exact ((movesUnit_addImports fun _ _ _ => hidle rfl).goes hfresh h).1
    | types =>
      obtain ⟨rfl, h⟩ := goes_resolveDeclared_fresh hsrc h
      refine ((movesUnit_forM fun i _ => movesUnit_typeItem (fun _ _ _ => ?_) (fun _ _ _ => hidle rfl) fun _ _ _ => hidle rfl).goes
        hfresh h).1
      exact sameTitles_updateFunc fun _ => rfl
    | bases =>
      obtain ⟨rfl, h⟩ := goes_bases_fresh hsrc h
      refine ((movesUnit_forM fun i _ => ?_).goes hfresh h).1
      exact movesUnit_itemBases (fun _ _ _ _ _ _ _ _ => hidle rfl) fun _ _ _ => hidle rfl
    | bodies =>
      obtain ⟨items', hitems, -⟩ := goes_bodies_fresh hsrc h
      rw [(checked_items hitems).1]
      exact sameTitles_layouts _ s
    | finalize =>
      obtain ⟨-, -, rfl, rfl⟩ := goes_pure.mp h
      exact hidle rfl
  | cached record imports pending =>
    cases ph with
    | outline => exact absurd rfl hph
    | linkImports =>
      obtain ⟨-, rfl⟩ := goes_linkImports_cached hsrc h
      exact hidle rfl
    | addImports =>
      obtain ⟨spaces, -, rfl, -⟩ := goes_addImports_cached hsrc h
      exact sameTitles_addImports s
    | types =>
      obtain ⟨-, -, rfl⟩ := goes_resolveDeclared_cached hsrc h
      exact sameTitles_settle s
    | bases =>
      obtain ⟨-, rfl⟩ := goes_mapItems_cached hsrc h
      exact hidle rfl
    | bodies =>
      obtain ⟨-, rfl⟩ := goes_mapItems_cached hsrc h
      exact hidle rfl
    | finalize =>
      obtain ⟨-, -, rfl, rfl⟩ := goes_pure.mp h
      exact hidle rfl

/-! ### Functions of units -/

theorem symbol_analyzeMethod {pl : Place} {cls : Option ClassId} {m r : Method} {st' : State}
    (h : Accepts (analyzeMethod cls m) pl ⟨s, []⟩ r st') : r.symbol = m.symbol := by
  unfold analyzeMethod at h
  split at h
  · obtain ⟨rfl, -⟩ := accepts_pure.mp h
    rfl
  · simp only [accepts_store_bind] at h
    obtain ⟨⟨⟨params, ss⟩, b⟩, st₁, -, h⟩ := accepts_bind.mp h
    obtain ⟨_, st₂, -, h⟩ := accepts_bind.mp h
    obtain ⟨_, st₃, -, h⟩ := accepts_bind.mp h
    obtain ⟨rfl, -⟩ := accepts_pure.mp h
    rfl

theorem symbols_methods {cls : Option ClassId} {ms rs : List Method} (h : InTurn (MethodRun cls) ms s rs s') :
    rs.map (·.symbol) = ms.map (·.symbol) := by
  induction h with
  | nil => rfl
  | cons head tail ih =>
    obtain ⟨pl, st, hm, rfl⟩ := head
    rw [List.map_cons, List.map_cons, symbol_analyzeMethod hm, ih]

theorem ItemRun.symbols {i r : Item} (h : ItemRun i s r s') : r.symbols = i.symbols := by
  cases h with
  | func method =>
    obtain ⟨pl, st, hm, rfl⟩ := method
    exact congrArg ([·]) (symbol_analyzeMethod hm)
  | cls _ methods => exact symbols_methods methods
  | iface | declared _ | initialized _ _ => rfl

theorem symbols_items {items rs : List Item} (h : InTurn ItemRun items s rs s') :
    rs.flatMap Item.symbols = items.flatMap Item.symbols := by
  induction h with
  | nil => rfl
  | cons head tail ih => rw [List.flatMap_cons, List.flatMap_cons, head.symbols, ih]

/-- After the outline, every unit keeps its functions. -/
theorem own_runPhase (hph : ph ≠ .outline) (h : Goes (runPhase p ph) u s x u' s') : u'.own = u.own := by
  cases ph with
  | outline => exact absurd rfl hph
  | linkImports => exact own_imports (by simp) h
  | addImports => exact own_imports (by simp) h
  | types => rw [(others_types h).1]
  | bases => rw [(others_bases h).1]
  | bodies =>
    cases hsrc : u.source with
    | fresh tree items imports =>
      obtain ⟨items', hitems, rfl⟩ := goes_bodies_fresh hsrc h
      rw [FileUnit.own_fresh hsrc]
      exact symbols_items hitems
    | cached record imports pending => rw [(goes_mapItems_cached hsrc h).1]
  | finalize =>
    obtain ⟨-, -, rfl, -⟩ := goes_pure.mp h
    rfl

theorem OwnFuncs.sameTitles {s₀ : Store} (h : OwnFuncs s₀ s u) (ht : SameTitles s s') : OwnFuncs s₀ s' u :=
  ⟨h.nodup, fun f hf => ht.size ▸ h.new f hf, fun f hf => (Func.title_eq (ht.title f)).2.1.trans (h.module f hf)⟩

theorem OwnFuncs.runPhase {s₀ : Store} (hph : ph ≠ .outline) (h : Goes (Analysis.runPhase p ph) u s () u' s') (hu : OwnFuncs s₀ s u) :
    OwnFuncs s₀ s' u' := by
  have hname : u'.module.name = u.module.name := by
    have hnamed := named_runPhase (p := p) ph u s rfl
    rwa [h.result] at hnamed
  have hown := own_runPhase hph h
  obtain ⟨hnodup, hnew, hmodule⟩ := hu.sameTitles (sameTitles_runPhase hph h)
  refine ⟨fun hfresh => hown ▸ hnodup ?_, hown ▸ hnew, fun f hf => (hmodule f (hown ▸ hf)).trans hname.symm⟩
  cases hsrc : u.source with
  | fresh tree items imports => exact ⟨tree, items, imports, hsrc⟩
  | cached record imports pending =>
    obtain ⟨tree, items, imports', hsrc'⟩ := hfresh
    obtain ⟨pending', hcached⟩ := goes_runPhase_cached hsrc h
    exact nomatch hsrc'.symm.trans hcached

/-- The phases after the outline leave the names of functions alone, and every unit keeps its functions. -/
theorem ownFuncs_sweeps {s₀ : Store} {phs : List Phase} (hphs : .outline ∉ phs) (h : Sweeps p phs us s us' s')
    (hus : ∀ u ∈ us, OwnFuncs s₀ s u) : SameTitles s s' ∧ ∀ u ∈ us', OwnFuncs s₀ s' u := by
  induction h with
  | nil => exact ⟨Std.Refl.refl _, hus⟩
  | cons head _ ih =>
    rw [List.mem_cons, not_or] at hphs
    obtain ⟨hph, hphs⟩ := hphs
    obtain ⟨hfirst, hown⟩ := head.forall (P := OwnFuncs s₀) (Q := OwnFuncs s₀) Std.Refl.refl (IsTrans.trans _ _ _)
      (fun ht hu => hu.sameTitles ht) (fun ht hu => hu.sameTitles ht)
      (fun hu hg => ⟨sameTitles_runPhase (Ne.symm hph) hg, hu.runPhase (Ne.symm hph) hg⟩) hus
    obtain ⟨hrest, hall⟩ := ih hphs hown
    exact ⟨IsTrans.trans _ _ _ hfirst hrest, hall⟩

end Phases

/-- A unit of a record has no program afterwards either. -/
theorem program?_run_cached {registry : Registry} {resolver : Option Resolver} {us us' : List FileUnit} {s s' : Store}
    (hclean : ∀ u ∈ us, u.Clean) (h : run registry resolver us s = (us', s')) (hquiet : ∀ u ∈ us', u.diags = []) :
    List.Forall₂ (fun u u' => ¬u.IsFresh → u'.program? = none) us us' := by
  have hcached : List.Forall₂ (fun u u' => ¬u.IsFresh → ¬u'.IsFresh) us us' := by
    refine (sweeps_run hclean h hquiet).forall₂ (fun {ph x u s u' s'} hu hgoes hx => ?_) (List.forall₂_same.mpr fun _ _ => id)
    cases hsrc : u.source with
    | fresh tree items imports => exact absurd ⟨tree, items, imports, hsrc⟩ (hu hx)
    | cached record imports pending =>
      obtain ⟨pending', hsrc'⟩ := goes_runPhase_cached hsrc hgoes
      rintro ⟨tree, items, imports', hfresh⟩
      exact nomatch hsrc'.symm.trans hfresh
  refine hcached.imp fun u u' hu hx => ?_
  cases hsrc : u'.source with
  | fresh tree items imports => exact absurd ⟨tree, items, imports, hsrc⟩ (hu hx)
  | cached record imports pending => rw [FileUnit.program?, hsrc]

/-! ## Runs -/

/-- The functions of units by their names, after an analysis of these units that started from a store: the ones of the store
are known by the names that they had, each further one is of one of the modules, and those of a module have different
qualified names. -/
structure Keyed (us us' : List FileUnit) (s s' : Store) : Prop where
  old : ∀ f : FuncId, f.index < s.funcs.size → (s'.func f).title = (s.func f).title
  new : ∀ f : FuncId, s.funcs.size ≤ f.index → f.index < s'.funcs.size →
    (s'.func f).native = false ∧ ∃ u ∈ us, (s'.func f).module = u.module.name
  unique : ∀ u ∈ us, u.Plain → ∀ f g : FuncId, s.funcs.size ≤ f.index → f.index < s'.funcs.size →
    s.funcs.size ≤ g.index → g.index < s'.funcs.size → (s'.func f).module = u.module.name →
    (s'.func g).module = u.module.name → (s'.func f).fullName = (s'.func g).fullName → f = g
  own : ∀ u ∈ us', OwnFuncs s s' u

/-- Functions of modules with different names are told apart by the names of their modules and their qualified names. -/
theorem keyed_run {registry : Registry} {resolver : Option Resolver} {us us' : List FileUnit} {s s' : Store}
    (hclean : ∀ u ∈ us, u.Clean) (hs : s.Pathed) (hroots : ∀ u ∈ us, Rooted s u)
    (hnames : (us.map (·.module.name)).Nodup) (h : run registry resolver us s = (us', s'))
    (hquiet : ∀ u ∈ us', u.diags = []) : Keyed us us' s s' := by
  obtain _ | @⟨_, _, _, us₁, _, _, t, _, houtline, hrest⟩ := sweeps_run hclean h hquiet
  obtain ⟨hcont, hbelongs, hown⟩ := belongs_outline houtline hs hroots
  obtain ⟨htitles, hown⟩ := ownFuncs_sweeps (by simp) hrest hown
  have htitle : ∀ f, _ := fun f => Func.title_eq (htitles.title f)
  refine ⟨fun f hf => (htitles.title f).trans (hcont.title f hf), fun f hf hf' => ?_, ?_, hown⟩
  · obtain ⟨-, hmodule, hnative⟩ := htitle f
    obtain ⟨u, hu, hbelongs⟩ := hbelongs f hf (htitles.size ▸ hf')
    exact ⟨hnative.trans hbelongs.native, u, hu, hmodule.trans hbelongs.module⟩
  · intro u hu hplain f g hf hf' hg hg' hmf hmg hfull
    obtain ⟨hfullf, hmodf, -⟩ := htitle f
    obtain ⟨hfullg, hmodg, -⟩ := htitle g
    -- functions of the module belong to its unit, because no other unit has a module of this name
    have hspelled : ∀ k : FuncId, s.funcs.size ≤ k.index → k.index < s'.funcs.size → (s'.func k).module = u.module.name →
        t.Spelled (.space u.module.space) [] k := by
      intro k hk hk' hmod
      obtain ⟨v, hv, hbelongs⟩ := hbelongs k hk (htitles.size ▸ hk')
      have hsame : v.module.name = u.module.name := by
        rw [← hbelongs.module, ← (htitle k).2.1, hmod]
      obtain rfl := List.inj_on_of_nodup_map hnames hv hu hsame
      exact hbelongs.spelled hplain
    exact (hspelled f hf hf' hmf).eq (hspelled g hg hg' hmg) (hfullf.symm.trans (hfull.trans hfullg))

end Weft.Analysis
