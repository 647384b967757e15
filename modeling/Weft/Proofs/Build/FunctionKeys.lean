import Weft.Proofs.Analysis.QualifiedNames
import Weft.Proofs.Build.Delivery
import Weft.Proofs.Bytecode.Headers
import Weft.Proofs.Tree.Words

/-!
# Functions of compiled modules

In a build, a function is told apart by its qualified name from the other functions of its module, and by this name and the
one of the module from all functions. So the table of a compiled module leads from the name of a function to its code, and
a constant for a function stands for this function only.
-/

namespace Weft

/-! ## Positions of functions -/

namespace Bytecode

/-- The code of a function starts at a position: its frame is made there. -/
structure StartsAt (c : Store × Module) (d : Typed.FuncDecl) (code : Bytes) (pos : Int) : Prop where
  frame : ∃ frame, d.frame = some frame ∧ ⟨pos.toNat, .initFrame, [(frame.slots : Int)]⟩ ∈ (decode code).1
  reads : ∃ stop, Reads (funcCode c d) (between (decode code).1 pos.toNat stop)
  nonneg : 0 ≤ pos

section Entries

variable {c : Store × Module} {cs : List Constant} {code : List Piece} {xs : List Instruction} {d : Typed.FuncDecl} {k : Nat}

theorem Final.frame (hf : Final cs code xs) (h : Holds code k (funcCode c d)) (hd : Compilable c d) :
    ∃ frame, d.frame = some frame ∧ ∃ x : Instruction, xs[k]? = some x ∧ x.op = .initFrame ∧
      x.operands = [(frame.slots : Int)] := by
  obtain ⟨frame, hframe, -⟩ := hd
  have hfirst : (funcCode c d)[0]? = some (.plain .initFrame d.line [(frame.slots : Int)]) := by
    rw [funcCode, hframe]
    rfl
  obtain ⟨x, hx, -, hkept | ⟨hop, -⟩ | ⟨hop, -⟩⟩ := hf.shows (h 0 _ hfirst)
  · obtain ⟨y, hmatches, hplain, -⟩ := hkept.operands
    exact ⟨frame, hframe, x, hx, hkept.op, (hplain fun _ h => by cases h).trans (hmatches.bare rfl).2⟩
  · cases hop
  · cases hop

theorem entryPlaces_sorted {fs : List Typed.FuncDecl} (h : ∀ d ∈ fs, Compilable c d) (start : Nat) :
    (∀ e ∈ entryPlaces c start fs, start ≤ e.2) ∧ (entryPlaces c start fs).Pairwise (·.2 < ·.2) := by
  induction fs generalizing start with
  | nil => exact ⟨by simp [entryPlaces], .nil⟩
  | cons d fs ih =>
    obtain ⟨hd, hfs⟩ := List.forall_mem_cons.mp h
    obtain ⟨hle, hrest⟩ := ih hfs (start + (funcCode c d).length)
    rw [entryPlaces]
    refine ⟨List.forall_mem_cons.mpr ⟨Nat.le_refl _, fun e he => ?_⟩, .cons (fun e he => ?_) hrest⟩
    · exact (Nat.le_add_right _ _).trans (hle e he)
    · exact Nat.lt_of_lt_of_le (Nat.lt_add_of_pos_right (funcCode_ne_nil hd)) (hle e he)

end Entries

section Compiled

variable {st : Store} {m : Module} {p : Typed.Program} {out : Compiled}

/-- The table of a compiled module has the functions of the program under their qualified names, in the order of their code. -/
theorem compile_starts (h : compile st m p = .ok out) :
    List.Forall₂ (fun (d : Typed.FuncDecl) (f : FuncPos) => f.name = (st.func d.symbol).fullName ∧
      StartsAt (st, m) d out.code f.pos) p.funcs out.funcs ∧ out.funcs.Pairwise (·.pos < ·.pos) := by
  obtain ⟨xs, hfinal, -, hcode, hfuncs, hcompilable⟩ := compile_final h
  have hf := hfinal .code
  constructor
  · have hplaces := (List.forall₂_and_left _ _).mpr ⟨hcompilable, holds_entryPlaces (c := (st, m)) [] p.funcs⟩
    have hentries : List.Forall₂ (fun (d : Typed.FuncDecl) (e : String × Option Int) => e.1 = (st.func d.symbol).fullName ∧
        ∀ pos, e.2 = some pos → StartsAt (st, m) d out.code pos) p.funcs (out.funcs.map fun f => (f.name, some f.pos)) := by
      rw [hfuncs, List.forall₂_map_right_iff]
      refine hplaces.imp fun d e ⟨hd, hsym, hpart⟩ => ⟨by rw [hsym], fun pos hpos => ?_⟩
      obtain ⟨x, hx, rfl⟩ := Option.map_eq_some_iff.mp hpos
      obtain ⟨frame, hframe, y, hy, hop, hoperands⟩ := hf.frame hpart hd
      obtain rfl : x = y := Option.some.inj (hx.symm.trans hy)
      have hmark : x.op ≠ .mark := by
        rw [hop]
        decide
      rw [hf.placed.pos hx, hcode]
      refine ⟨⟨frame, hframe, ?_⟩, ⟨posAt (xs .code) (e.2 + (funcCode (st, m) d).length), ?_⟩, Int.natCast_nonneg _⟩
      · rw [hf.decode, Int.toNat_natCast, ← hop, ← hoperands]
        exact mem_read hf hx hmark
      · rw [hf.decode, Int.toNat_natCast, between_posAt hf.placed]
        exact hf.segment_reads fun hr => ⟨_, hpart _ _ hr, rfl⟩
    rw [List.forall₂_map_right_iff] at hentries
    exact hentries.imp fun d f ⟨hname, hstarts⟩ => ⟨hname, hstarts f.pos rfl⟩
  · have hpos : (out.funcs.map FuncPos.pos).Pairwise (· < ·) := by
      rw [map_pos hf hcompilable hfuncs, List.pairwise_map, List.pairwise_map]
      refine (entryPlaces_sorted hcompilable 0).2.imp_of_mem fun {e e'} he _ hlt => ?_
      obtain ⟨q, hq, ho⟩ := initFrame_at hcompilable (List.mem_map_of_mem he)
      obtain ⟨x, hx, hop | ⟨hop, -⟩ | ⟨hop, -⟩⟩ := hf.at hq
      · have hmark : x.op ≠ .mark := by
          rw [hop, ho]
          decide
        exact Int.ofNat_lt.mpr (posAt_lt hx hmark hlt)
      · simp [ho] at hop
      · simp [ho] at hop
    rwa [List.pairwise_map] at hpos

theorem Compiled.funcPos?_name (h : (out.funcs.map FuncPos.name).Nodup) {f : FuncPos} (hf : f ∈ out.funcs) :
    out.funcPos? f.name = some f.pos := by
  rw [Compiled.funcPos?]
  cases hfind : out.funcs.find? fun g => g.name = f.name with
  | none => exact absurd (List.find?_eq_none.mp hfind f hf) (by simp)
  | some g =>
    have hname : g.name = f.name := by simpa using List.find?_some hfind
    rw [List.inj_on_of_nodup_map h (List.mem_of_find?_eq_some hfind) hf hname]
    rfl

end Compiled

end Bytecode

/-! ## Units of a build -/

theorem Analysis.FileUnit.symbols_program {u : FileUnit} {p : Typed.Program} (hp : u.program? = some p) :
    (p.funcs.map (·.symbol)).Sublist u.own := by
  cases hsrc : u.source with
  | cached record imports pending => simp [FileUnit.program?, hsrc] at hp
  | fresh tree items imports =>
    rw [FileUnit.own_fresh hsrc]
    obtain rfl : _ = p := by simpa [FileUnit.program?, hsrc] using hp
    have himports : (imports.map fun i => Typed.Decl.importing i.line i.name).flatMap Typed.Decl.funcs = [] := by
      simp [List.flatMap_eq_nil_iff, Typed.Decl.funcs]
    rw [Typed.Program.funcs, List.flatMap_append, himports, List.nil_append]
    clear hsrc hp himports
    induction items with
    | nil => exact .slnil
    | cons i items ih =>
      cases i with
      | func sc m => exact ih.cons_cons _
      | cls sc d c ms =>
        have hms : (ms.map FileUnit.typedMethod).map (·.symbol) = ms.map (·.symbol) := by simp [FileUnit.typedMethod]
        simp only [List.filterMap_cons, FileUnit.typedItem, List.flatMap_cons, Typed.Decl.funcs, List.map_append, hms]
        exact (List.Sublist.refl _).append ih
      | iface sc d i ms => exact ih.trans (List.sublist_append_right _ _)
      | global sc d type g init => exact ih

namespace Build

open Analysis Bytecode Memory
open Store (Continues)

/-- Where a module was kept of a source, the names that it declares have no points, like those that are read from a text. -/
def Content.Plain : Content → Prop
  | .parsed _ => True
  | .cached _ module => namedRecords (module.space.getD default).members

section Units

variable (r : Registry) (files : List (Source × Content)) (s : Store)

theorem continues_new (name file : String) : s.Continues (Module.new r name file s).2 ∧
    (Module.new r name file s).2.funcs = s.funcs ∧ (Module.new r name file s).1.name = name ∧
    (Module.new r name file s).1.space.index < (Module.new r name file s).2.spaces.size ∧
    ((Module.new r name file s).2.space (Module.new r name file s).1.space).path = "" := by
  obtain ⟨hcont, hroom, -, hpath⟩ := Store.continues_newNamespace s "" "" name
  have hlink : Continues _ (Module.new r name file s).2 :=
    Store.continues_updateSpace (s := (Store.newNamespace "" "" name s).2) (n := ⟨s.spaces.size⟩) (fun _ => ⟨rfl, rfl⟩) id .inl
  exact ⟨hcont.trans hlink, rfl, rfl, Nat.lt_of_lt_of_le hroom (hlink.below .space), (hlink.space _ hroom).2.trans hpath⟩

/-- What the unit of a source is before it is analyzed. -/
structure Starts (s : Store) (x : Source × Content) (u : FileUnit) : Prop where
  name : u.module.name = x.1.module
  rooted : Rooted s u
  tree : ∀ tree, x.2 = .parsed tree → u.Plain = Tree.namedDecls tree.decls
  record : ∀ data module, x.2 = .cached data module →
    ¬u.IsFresh ∧ u.Plain = namedRecords (module.space.getD default).members

theorem unitOf_starts (x : Source × Content) : s.Continues (unitOf r x.1 x.2 s).2 ∧ (unitOf r x.1 x.2 s).2.funcs = s.funcs ∧
    Starts (unitOf r x.1 x.2 s).2 x (unitOf r x.1 x.2 s).1 := by
  obtain ⟨source, content⟩ := x
  obtain ⟨hcont, hfuncs, hname, hroom, hpath⟩ := continues_new r s source.module source.path
  cases content with
  | parsed tree =>
    refine ⟨hcont, hfuncs, hname, ⟨hroom, hpath⟩, ?_, nofun⟩
    rintro _ ⟨⟩
    rfl
  | cached data module =>
    refine ⟨hcont, hfuncs, hname, ⟨hroom, hpath⟩, nofun, ?_⟩
    rintro _ _ ⟨⟩
    exact ⟨fun ⟨_, _, _, h⟩ => (nomatch h), rfl⟩

theorem unitsOf_starts : s.Continues (unitsOf r files s).2 ∧ (unitsOf r files s).2.funcs = s.funcs ∧
    List.Forall₂ (Starts (unitsOf r files s).2) (unrivaled files) (unitsOf r files s).1 := by
  unfold unitsOf
  generalize unrivaled files = xs
  induction xs generalizing s with
  | nil => exact ⟨.refl s, rfl, .nil⟩
  | cons x xs ih =>
    rw [List.mapM_cons]
    obtain ⟨hcont, hfuncs, hstarts⟩ := unitOf_starts r s x
    obtain ⟨hcont', hfuncs', hrest⟩ := ih (unitOf r x.1 x.2 s).2
    refine ⟨hcont.trans hcont', hfuncs'.trans hfuncs, .cons ?_ hrest⟩
    exact ⟨hstarts.name, hstarts.rooted.continues hcont', hstarts.tree, hstarts.record⟩

variable {r files s}

/-- Sources that are analyzed without problems have units, which the analysis leads to those that they have afterwards. -/
theorem analyze_run {l : Layout} {analyzed : List Analyzed} {s' : Store} (h : analyze r l files s = (([], analyzed), s')) :
    List.Forall₂ (Starts (unitsOf r files s).2) files (unitsOf r files s).1 ∧ (∀ u ∈ (unitsOf r files s).1, u.Clean) ∧
      Analysis.run r (some l.resolve) (unitsOf r files s).1 (unitsOf r files s).2 = (analyzed.map (·.unit), s') := by
  obtain ⟨-, hfiles, -⟩ := analyze_quiet h
  rw [analyze_apply] at h
  obtain ⟨h, hstore⟩ := Prod.mk.inj h
  obtain ⟨-, rfl⟩ := Prod.mk.inj h
  have hholds := unitsOf_holds r files s
  have hlength : (unrivaled files).length =
      (Analysis.run r (some l.resolve) (unitsOf r files s).1 (unitsOf r files s).2).1.length := by
    have hnames : (Analysis.run r (some l.resolve) (unitsOf r files s).1 (unitsOf r files s).2).1.map (·.module.name) =
        (unitsOf r files s).1.map (·.module.name) := names_run
    have hlengths := congrArg List.length hnames
    rw [List.length_map, List.length_map] at hlengths
    rw [hlengths, hholds.length_eq]
  have hsingle : unrivaled files = files := by
    rw [List.map_map] at hfiles
    exact (List.map_fst_zip hlength.le).symm.trans hfiles
  refine ⟨?_, fun u hu => ?_, ?_⟩
  · have hstarts := (unitsOf_starts r files s).2.2
    rwa [hsingle] at hstarts
  · obtain ⟨x, -, hx, hbroken⟩ := exists_of_forall₂ hholds hu
    exact ⟨hx.diags, hbroken⟩
  · rw [List.map_map]
    refine Prod.ext ?_ hstore
    exact (List.map_snd_zip hlength.ge).symm

end Units

/-! ## Accepted builds -/

theorem pathed_natives (x : Natives) : x.store.Pathed := by
  intro n name c hc
  by_cases hn : n.index < x.store.spaces.size
  · rw [Store.space, Array.getElem?_eq_getElem hn] at hc
    exact absurd (x.flat _ (Array.getElem_mem_toList hn) _ (Table.get?_mem hc)) (by simp [Sym.isSpace])
  · rw [Store.space_of_size_le (Nat.le_of_not_lt hn)] at hc
    cases hc

theorem native_natives (x : Natives) {f : FuncId} (hf : f.index < x.store.funcs.size) : (x.store.func f).native = true := by
  rw [Store.func, Array.getElem?_eq_getElem hf]
  exact x.native _ (Array.getElem_mem_toList hf)

section Accepted

variable {c : Config} {l : Layout} {m : Memory} {analyzed : List Analyzed} {store : Store} {a b : Analyzed} {f g : FuncId}

/-- The units of the sources before they are analyzed, and their functions by name afterwards. Of sources that are not read
there are no programs. -/
theorem Accepted.keyed (h : Accepted c l m analyzed store) : ∃ units s,
    List.Forall₂ (fun a u => Starts s (a.source, a.content) u ∧ (¬u.IsFresh → a.unit.program? = none)) analyzed units ∧
      Keyed units (analyzed.map (·.unit)) s store ∧ ∀ f : FuncId, f.index < s.funcs.size → (s.func f).native = true := by
  obtain ⟨hnodup, -, hunits⟩ := analyze_quiet h.quiet
  obtain ⟨hstarts, hclean, hrun⟩ := analyze_run h.quiet
  obtain ⟨hcont, hfuncs, -⟩ := unitsOf_starts c.natives.registry
    (analyzed.map fun a => (a.source, a.content)) c.natives.store
  have hquiet : ∀ u ∈ analyzed.map (·.unit), u.diags = [] := fun u hu => by
    obtain ⟨a, ha, rfl⟩ := List.mem_map.mp hu
    exact (hunits a ha).diags
  have hprograms := List.forall₂_map_right_iff.mp (program?_run_cached hclean hrun hquiet)
  refine ⟨_, _, (List.forall₂_map_left_iff.mp hstarts).mp (fun _ _ hx hu => ⟨hx, hu⟩) hprograms.flip, ?_, fun f hf => ?_⟩
  · refine keyed_run hclean (hcont.pathed (pathed_natives _)) (fun u hu => ?_) ?_ hrun hquiet
    · obtain ⟨x, -, hx⟩ := exists_of_forall₂ hstarts hu
      exact hx.rooted
    · rwa [eq_map_of_forall₂ hstarts fun _ _ hx => hx.name]
  · rw [hfuncs] at hf
    rw [Store.func, hfuncs]
    exact native_natives _ hf

/-- The unit of a source that is read, or that has a record of names without points, has names without points. -/
theorem Accepted.plain (h : Accepted c l m analyzed store) (hb : b ∈ analyzed) (hplain : b.content.Plain) {s : Store}
    {u : FileUnit} (hu : Starts s (b.source, b.content) u) : u.Plain := by
  have hholds := h.holds b hb
  cases hcontent : b.content with
  | parsed tree =>
    rw [hcontent] at hholds
    obtain @⟨text, _, -, hparse⟩ := hholds
    have hdecls := (Tree.parseFile_decls b.source.path text).1
    rw [hparse] at hdecls
    rw [hu.tree tree hcontent]
    exact hdecls
  | cached data module =>
    rw [hcontent] at hplain
    rw [(hu.record data module hcontent).2]
    exact hplain

/-- A function that is compiled. -/
structure Coded (s : Store) (f : FuncId) : Prop where
  inStore : f.index < s.funcs.size
  native : (s.func f).native = false

/-- Functions of a build whose constants are the same are the same, where the names of their module have no points. -/
theorem Accepted.funcConst_inj (h : Accepted c l m analyzed store) (hf : Coded store f) (hg : Coded store g)
    (hplain : ∀ b ∈ analyzed, b.source.module = (store.func f).module → b.content.Plain)
    (heq : funcConst (store.func f) = funcConst (store.func g)) : f = g := by
  obtain ⟨units, s, hunits, hkeyed, hnative⟩ := h.keyed
  have hnew : ∀ {k : FuncId}, Coded store k → s.funcs.size ≤ k.index := by
    intro k hk
    by_contra hold
    have htitle := (Func.title_eq (hkeyed.old k (Nat.lt_of_not_le hold))).2.2
    rw [hk.native, hnative k (Nat.lt_of_not_le hold)] at htitle
    cases htitle
  obtain ⟨-, u, hu, hmodule⟩ := hkeyed.new f (hnew hf) hf.inStore
  obtain ⟨b, hb, hstarts, -⟩ := exists_of_forall₂ hunits hu
  have hname : u.Plain := h.plain hb (hplain b hb (hstarts.name.symm.trans hmodule.symm)) hstarts
  have hmodules : (store.func f).module = (store.func g).module := congrArg Constant.module heq
  exact hkeyed.unique u hu hname f g (hnew hf) hf.inStore (hnew hg) hg.inStore hmodule (hmodules ▸ hmodule)
    (congrArg Constant.str heq)

/-- The functions and methods of a source that is compiled are those of its module, and have different qualified names. -/
theorem Accepted.names_nodup (h : Accepted c l m analyzed store) (ha : a ∈ analyzed) {p : Typed.Program}
    (hp : a.unit.program? = some p) : (p.funcs.map fun d => (store.func d.symbol).fullName).Nodup ∧
      ∀ d ∈ p.funcs, Coded store d.symbol ∧ (store.func d.symbol).module = a.source.module := by
  obtain ⟨units, s, hunits, hkeyed, -⟩ := h.keyed
  obtain ⟨u, hu, hstarts, hprogram⟩ := exists_of_forall₂ hunits.flip ha
  have hfresh : a.unit.IsFresh := by
    cases hsrc : a.unit.source with
    | fresh tree items imports => exact ⟨tree, items, imports, hsrc⟩
    | cached record imports pending => simp [FileUnit.program?, hsrc] at hp
  have hplain : u.Plain := by
    refine h.plain ha ?_ hstarts
    cases hcontent : a.content with
    | parsed tree => trivial
    | cached data module =>
      rw [hprogram (hstarts.record data module hcontent).1] at hp
      cases hp
  have hsub := FileUnit.symbols_program hp
  obtain ⟨hnodup, hnew, hmodule⟩ := hkeyed.own a.unit (List.mem_map_of_mem ha)
  have hname : a.unit.module.name = u.module.name := by
    rw [hstarts.name, ((analyze_quiet h.quiet).2.2 a ha).name]
  constructor
  · have hinj : ∀ x ∈ p.funcs.map (·.symbol), ∀ y ∈ p.funcs.map (·.symbol),
        (store.func x).fullName = (store.func y).fullName → x = y := by
      intro x hx y hy
      have hx := hsub.subset hx
      have hy := hsub.subset hy
      exact hkeyed.unique u hu hplain x y (hnew x hx).1 (hnew x hx).2 (hnew y hy).1 (hnew y hy).2
        ((hmodule x hx).trans hname) ((hmodule y hy).trans hname)
    have hmapped := List.Nodup.map_on hinj ((hnodup hfresh).sublist hsub)
    rwa [List.map_map] at hmapped
  · intro d hd
    have hd := hsub.subset (List.mem_map_of_mem hd)
    obtain ⟨hnative, -⟩ := hkeyed.new _ (hnew _ hd).1 (hnew _ hd).2
    exact ⟨⟨(hnew _ hd).2, hnative⟩, (hmodule _ hd).trans (hname.trans hstarts.name)⟩

/-- In a build, the functions and methods of a source have different qualified names, and its module has the position of the
code of each of them under this name, in increasing order. Constants of the module stand for one function exactly if they are
the same constant, where the names of the module of the function have no points. -/
theorem functions_keyed (h : Accepted c l m analyzed store) (ha : a ∈ analyzed) {p : Typed.Program}
    (hp : a.unit.program? = some p) {out : Compiled} (hout : compile store a.unit.module p = .ok out) :
    (p.funcs.map fun d => (store.func d.symbol).fullName).Nodup ∧
      List.Forall₂ (fun (d : Typed.FuncDecl) (e : FuncPos) => e.name = (store.func d.symbol).fullName ∧
        out.funcPos? e.name = some e.pos ∧ StartsAt (store, a.unit.module) d out.code e.pos) p.funcs out.funcs ∧
      out.funcs.Pairwise (·.pos < ·.pos) ∧
      ∀ f g : FuncId, Coded store f → Coded store g →
        (∀ b ∈ analyzed, b.source.module = (store.func f).module → b.content.Plain) →
        ∀ i j : Nat, out.constants[i]? = some (funcConst (store.func f)) → out.constants[j]? = some (funcConst (store.func g)) →
          (i = j ↔ f = g) := by
  obtain ⟨hnames, -⟩ := h.names_nodup ha hp
  obtain ⟨hstarts, hsorted⟩ := compile_starts hout
  refine ⟨hnames, ?_, hsorted, fun f g hf hg hplain i j hi hj => ⟨?_, ?_⟩⟩
  · have hentries : out.funcs.map FuncPos.name = p.funcs.map fun d => (store.func d.symbol).fullName :=
      eq_map_of_forall₂ hstarts fun _ _ hd => hd.1
    refine List.forall₂_iff_zip.mpr ⟨hstarts.length_eq, fun {d e} hde => ?_⟩
    obtain ⟨hname, hstart⟩ := List.forall₂_zip hstarts hde
    exact ⟨hname, Compiled.funcPos?_name (hentries ▸ hnames) (List.of_mem_zip hde).2, hstart⟩
  · rintro rfl
    exact h.funcConst_inj hf hg hplain (Option.some.inj (hi.symm.trans hj))
  · rintro rfl
    obtain ⟨hlt, -⟩ := List.getElem?_eq_some_iff.mp hi
    exact (List.getElem?_inj hlt (compile_nodup hout)).mp (hi.trans hj.symm)

end Accepted

/-! ## A file with functions of one simple name -/

namespace Homonyms

/-- A namespace with a function and a class with a method of one simple name, and a variable for the function. -/
def text : Bytes :=
  Text.encode "namespace n \x7b func f() \x7b \x7d \x7d class C \x7b func f() \x7b \x7d \x7d func() g = n.f;"

/-- A file of this text. -/
def files : Memory := (Memory.new "/w").put ["w", "m.loom"] (.file text 1)

/-- A build of the file. -/
def config : Config := { Config.empty with files := ["m.loom"], includes := ["."] }

def layout : Layout := .new "/w" ["."] ["m.loom"]

def source : Source := ⟨"m.loom", "/w/m.loom", "m"⟩

def tree : Tree.File := (Tree.parseFile source.path text).1

/-- The analysis of the file. -/
def result : (List Diagnostic × List Analyzed) × Store :=
  analyze (Registry.standard .empty).1 layout [(source, .parsed tree)] (Registry.standard .empty).2

/-- The names of the functions in the table of a module that is compiled of an analyzed source, and of its constants. -/
def names (analyzed : Analyzed) : Option (List String × List String) :=
  analyzed.unit.program?.bind fun p => (compile result.2 analyzed.unit.module p).toOption.map fun out =>
    (out.funcs.map FuncPos.name, out.constants.map Constant.str)

set_option maxRecDepth 100000 in
/-- The file is read and analyzed without problems, and compiled to a module of its function and its method. -/
theorem evaluated : (Tree.parseFile source.path text).2.isEmpty = true ∧ result.1.1.isEmpty = true ∧
    result.1.2.map names = [some (["n.f", "C.f"], ["n.f"])] := by
  decide +kernel

theorem parseFile_text : Tree.parseFile source.path text = (tree, []) := by
  rw [← List.isEmpty_iff.mp evaluated.1, tree]

theorem result_eq : result = (([], result.1.2), result.2) := by
  rw [← List.isEmpty_iff.mp evaluated.2.1]

theorem accepted : Accepted config layout files result.1.2 result.2 := by
  obtain ⟨-, hfiles, -⟩ := analyze_quiet result_eq
  have hsources : result.1.2.map Analyzed.source = [source] := by
    simpa using congrArg (List.map Prod.fst) hfiles
  refine ⟨hsources.trans (by decide +kernel), fun a ha => ?_, ?_⟩
  · obtain ⟨hsource, hcontent⟩ : a.source = source ∧ a.content = .parsed tree := by
      have hmem : (a.source, a.content) ∈ result.1.2.map fun a => (a.source, a.content) := List.mem_map_of_mem ha
      rw [hfiles] at hmem
      exact Prod.mk.inj (List.mem_singleton.mp hmem)
    rw [hsource, hcontent]
    exact .parsed ⟨text, 1, by decide +kernel, by decide +kernel⟩ parseFile_text
  · rw [hfiles]
    exact result_eq

end Homonyms

/-- The table of the module of this file has the function and the method under their qualified names. -/
theorem functions_keyed_homonyms : ∃ analyzed store a p out,
    Accepted Homonyms.config Homonyms.layout Homonyms.files analyzed store ∧ a ∈ analyzed ∧ a.unit.program? = some p ∧
      compile store a.unit.module p = .ok out ∧ out.funcs.map FuncPos.name = ["n.f", "C.f"] ∧
      out.constants.map Constant.str = ["n.f"] ∧
      (p.funcs.map fun d => (store.func d.symbol).fullName).Nodup ∧
      List.Forall₂ (fun (d : Typed.FuncDecl) (e : FuncPos) => e.name = (store.func d.symbol).fullName ∧
        out.funcPos? e.name = some e.pos ∧ StartsAt (store, a.unit.module) d out.code e.pos) p.funcs out.funcs ∧
      out.funcs.Pairwise (·.pos < ·.pos) ∧
      ∀ f g : FuncId, Coded store f → Coded store g →
        (∀ b ∈ analyzed, b.source.module = (store.func f).module → b.content.Plain) →
        ∀ i j : Nat, out.constants[i]? = some (funcConst (store.func f)) → out.constants[j]? = some (funcConst (store.func g)) →
          (i = j ↔ f = g) := by
  obtain ⟨a, ha, hout⟩ := List.exists_of_mem_map
    (Homonyms.evaluated.2.2 ▸ List.mem_singleton_self (some (["n.f", "C.f"], ["n.f"])))
  obtain ⟨p, hp, hout⟩ := Option.bind_eq_some_iff.mp hout
  obtain ⟨out, hsome, hout⟩ := Option.map_eq_some_iff.mp hout
  obtain ⟨hfuncs, hconstants⟩ := Prod.mk.inj hout
  have hcompile : compile Homonyms.result.2 a.unit.module p = .ok out := by
    cases hresult : compile Homonyms.result.2 a.unit.module p with
    | error e =>
      rw [hresult] at hsome
      cases hsome
    | ok out' =>
      rw [hresult] at hsome
      rw [Option.some.inj hsome]
  exact ⟨_, _, a, p, out, Homonyms.accepted, ha, hp, hcompile, hfuncs, hconstants,
    functions_keyed Homonyms.accepted ha hp hcompile⟩

end Build

end Weft
