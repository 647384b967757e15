import Weft.Proofs.Renaming.Bases

/-!
# Phases of renamed modules

A unit resolves its imports under a renaming as it does without, and makes the same modules visible in its root namespace. It
changes no other symbol.
-/

namespace Weft

/-- The second store differs from the first in one namespace only. -/
structure Store.Relinked (root : NamespaceId) (s s' : Store) : Prop where
  rest : s' = { s with spaces := s'.spaces }
  size : s'.spaces.size = s.spaces.size
  space : ∀ n, n ≠ root → s'.space n = s.space n

namespace Store.Relinked

variable {root : NamespaceId} {s s' s'' : Store}

theorem refl (s : Store) : s.Relinked root s := ⟨rfl, rfl, fun _ _ => rfl⟩

theorem trans (h : s.Relinked root s') (h' : s'.Relinked root s'') : s.Relinked root s'' where
  rest := by rw [h'.rest, h.rest]
  size := h'.size.trans h.size
  space n hn := (h'.space n hn).trans (h.space n hn)

theorem link (root n : NamespaceId) : s.Relinked root (Store.link root n s).2 where
  rest := rfl
  size := Array.size_modify
  space m hm := by
    rw [Store.link, Store.space_updateSpace, if_neg fun h => hm h.1.symm]

end Store.Relinked

/-- A project finds renamed modules where another one finds the modules. -/
def Analysis.Project.Imports (σ : Renaming) (p p' : Analysis.Project) : Prop :=
  ∀ file path, p'.import? file path = (p.import? file path).map (Prod.map id σ.space)

namespace Analysis

section Link

variable {σ : Renaming} {p p' : Project} {u : FileUnit} {tree : Tree.File} {items : List Item} {imports : List Imported}
  {s s' : Store}

/-! ## Resolving imports -/

/-- What an import adds, once it is known what it leads to, to those behind it. -/
def importFound (module : String) (seen : List String) (i : Tree.Import) (rest : List String → Analysis (List Imported)) :
    Except String (String × NamespaceId) → Analysis (List Imported)
  | .error why => do
    report i.span (.invalidImport i.path why)
    rest seen
  | .ok (name, space) =>
    if name = module then do
      report i.span (.importsItself name)
      rest seen
    else if name ∈ seen then do
      report i.span (.importedTwice name)
      rest seen
    else do
      return { line := i.span.start.line, name, space } :: (← rest (name :: seen))

theorem carries_resolveImports (hp : p.Imports σ p') (module : String) (is : List Tree.Import) {seen : List String} :
    Carries σ s s' (List.map (Imported.rename σ)) (resolveImports p module seen is) (resolveImports p' module seen is) := by
  induction is generalizing seen with
  | nil => exact carries_pure rfl
  | cons i is ih =>
    intro file sc bs
    -- What an import leads to depends on the file, which is the same on both sides.
    have hfound : ∀ r : Except String (String × NamespaceId), Carries σ s s' (List.map (Imported.rename σ))
        (importFound module seen i (resolveImports p module · is) r)
        (importFound module seen i (resolveImports p' module · is) (r.map (Prod.map id σ.space))) := by
      intro r
      cases r with
      | error why => exact carries_report_bind rfl ih
      | ok found =>
        obtain ⟨name, space⟩ := found
        refine carries_ite Iff.rfl (carries_report_bind rfl ih) (carries_ite Iff.rfl (carries_report_bind rfl ih) ?_)
        exact ih.bind fun rest => carries_pure rfl
    have h := hfound (p.import? file i.path) file sc bs
    rw [← hp file i.path] at h
    exact h

/-- A unit resolves its imports under a renaming as it does without, and changes no symbol. -/
theorem linkImports_rename (hp : p.Imports σ p') (hsrc : u.source = .fresh tree items imports) (s s' : Store) :
    (linkImports p' (u.rename σ) s').1.2 = (linkImports p u s).1.2.rename σ ∧ (linkImports p u s).2 = s ∧
      (linkImports p' (u.rename σ) s').2 = s' := by
  have hrun : linkImports p u s = (do
      let imports ← attempt (.file u.module.space) [] (resolveImports p u.module.name [] tree.imports)
      modify ({ · with source := .fresh tree items imports }) : OnUnit PUnit) u s := by
    obtain ⟨file, module, diags, broken, source⟩ := u
    obtain rfl : source = _ := hsrc
    rfl
  have hrun' : linkImports p' (u.rename σ) s' = (do
      let imports ← attempt (Scope.rename σ (.file u.module.space)) [] (resolveImports p' u.module.name [] tree.imports)
      modify ({ · with source := .fresh tree (items.map (Item.rename σ)) imports }) : OnUnit PUnit) (u.rename σ) s' := by
    obtain ⟨file, module, diags, broken, source⟩ := u
    obtain rfl : source = _ := hsrc
    rfl
  have hattempt : RelatesUnit σ (fun t t' => t = s ∧ t' = s') (List.map (Imported.rename σ))
      (attempt (.file u.module.space) [] (resolveImports p u.module.name [] tree.imports))
      (attempt (Scope.rename σ (.file u.module.space)) [] (resolveImports p' u.module.name [] tree.imports)) :=
    (relates_of_carries fun t t' _ => carries_resolveImports hp u.module.name tree.imports).attempt rfl
  have hset : ∀ imports : List Imported, RelatesUnit σ (fun t t' => t = s ∧ t' = s') id
      (modify ({ · with source := .fresh tree items imports }) : OnUnit PUnit)
      (modify ({ · with source := .fresh tree (items.map (Item.rename σ)) (imports.map (Imported.rename σ)) })) :=
    fun imports => relatesUnit_modify fun _ => rfl
  obtain ⟨_, u₁, s₁, s₁', h₁, h₂, rfl, rfl⟩ := RelatesUnit.bind
    (k := fun imports => modify ({ · with source := .fresh tree items imports }))
    (l := fun imports => modify ({ · with source := .fresh tree (items.map (Item.rename σ)) imports })) hattempt hset u s s'
    ⟨rfl, rfl⟩
  rw [hrun, hrun', h₁, h₂]
  exact ⟨rfl, rfl, rfl⟩

theorem linkImports_cached {record : NamespaceRecord} {names : List String} {pending : List Pending}
    (hsrc : u.source = .cached record names pending) : linkImports p u s = (((), u), s) := by
  obtain ⟨file, module, diags, broken, source⟩ := u
  obtain rfl : source = _ := hsrc
  rfl

/-! ## Visible modules -/

theorem addImport_apply (name : String) (n : NamespaceId) (u : FileUnit) (s : Store) :
    addImport name n u s = (((), { u with module := (u.module.addImport name n s).1.2 }), (u.module.addImport name n s).2) := rfl

theorem relinked_addImport (m : Module) (name : String) (n : NamespaceId) (s : Store) :
    (m.addImport name n s).1.2.space = m.space ∧ s.Relinked m.space (m.addImport name n s).2 := by
  unfold Module.addImport
  split
  · exact ⟨rfl, .refl s⟩
  · exact ⟨rfl, .link _ n⟩

/-- Computations that change no namespace but the root namespace of their unit. -/
def Relinks (m : OnUnit PUnit) : Prop :=
  ∀ u s, (m u s).1.2.module.space = u.module.space ∧ s.Relinked u.module.space (m u s).2

theorem relinks_forM {ι : Type} {f : ι → OnUnit PUnit} (xs : List ι) (hf : ∀ x, Relinks (f x)) : Relinks (xs.forM f) := by
  induction xs with
  | nil => exact fun u s => ⟨rfl, .refl s⟩
  | cons x xs ih =>
    intro u s
    obtain ⟨hroot, hlinks⟩ := hf x u s
    obtain ⟨hroot', hlinks'⟩ := ih (f x u s).1.2 (f x u s).2
    rw [hroot] at hroot' hlinks'
    exact ⟨hroot', hlinks.trans hlinks'⟩

theorem relinks_addImport (name : String) (n : NamespaceId) : Relinks (addImport name n) := by
  intro u s
  rw [addImport_apply]
  exact relinked_addImport u.module name n s

/-- Imports change the root namespace of their unit only. -/
theorem relinks_addImports : Relinks (addImports p) := by
  intro u s
  obtain ⟨file, module, diags, broken, source⟩ := u
  cases source with
  | fresh tree items imports => exact relinks_forM imports (fun i => relinks_addImport i.name i.space) _ s
  | cached record names pending =>
    refine relinks_forM names (fun name => ?_) _ s
    split
    · exact relinks_addImport name _
    · exact fun u s => ⟨rfl, .refl s⟩

/-- The root namespace of a module has the same links under a renaming. -/
def LinksAgree (σ : Renaming) (root : NamespaceId) (s s' : Store) : Prop :=
  root.index < s.spaces.size ∧ (σ.space root).index < s'.spaces.size ∧ s'.space (σ.space root) = (s.space root).rename σ

theorem LinksAgree.link {root : NamespaceId} (h : LinksAgree σ root s s') (n : NamespaceId) :
    LinksAgree σ root (Store.link root n s).2 (Store.link (σ.space root) (σ.space n) s').2 := by
  obtain ⟨hroom, hroom', heq⟩ := h
  refine ⟨?_, ?_, ?_⟩
  · rw [(Store.Relinked.link root n).size]
    exact hroom
  · rw [(Store.Relinked.link (σ.space root) (σ.space n)).size]
    exact hroom'
  · rw [Store.link, Store.link, Store.space_updateSpace, Store.space_updateSpace, if_pos ⟨rfl, hroom'⟩, if_pos ⟨rfl, hroom⟩, heq]
    simp only [Namespace.rename, linkOnce_rename]

theorem addImport_rename {m : Module} (name : String) (n : NamespaceId) (h : LinksAgree σ m.space s s') :
    ((m.rename σ).addImport name (σ.space n) s').1.2 = (m.addImport name n s).1.2.rename σ ∧
      LinksAgree σ m.space (m.addImport name n s).2 ((m.rename σ).addImport name (σ.space n) s').2 := by
  have himports : (m.rename σ).imports = m.imports := rfl
  unfold Module.addImport
  rw [himports]
  by_cases hname : name ∈ m.imports
  · rw [if_pos hname, if_pos hname]
    exact ⟨rfl, h⟩
  · rw [if_neg hname, if_neg hname]
    exact ⟨rfl, h.link n⟩

/-- A unit makes the same modules visible under a renaming as it does without. -/
theorem addImports_rename (hsrc : u.source = .fresh tree items imports) (h : LinksAgree σ u.module.space s s') :
    (addImports p' (u.rename σ) s').1.2 = (addImports p u s).1.2.rename σ ∧
      LinksAgree σ u.module.space (addImports p u s).2 (addImports p' (u.rename σ) s').2 := by
  have hrun : addImports p u s = (imports.forM fun i => addImport i.name i.space : OnUnit PUnit) u s := by
    obtain ⟨file, module, diags, broken, source⟩ := u
    obtain rfl : source = _ := hsrc
    rfl
  have hrun' : addImports p' (u.rename σ) s' =
      ((imports.map (Imported.rename σ)).forM fun i => addImport i.name i.space : OnUnit PUnit) (u.rename σ) s' := by
    obtain ⟨file, module, diags, broken, source⟩ := u
    obtain rfl : source = _ := hsrc
    rfl
  rw [hrun, hrun']
  clear hrun hrun' hsrc
  induction imports generalizing u s s' with
  | nil => exact ⟨rfl, h⟩
  | cons i imports ih =>
    obtain ⟨hm, hlinks⟩ := addImport_rename i.name i.space h
    have hspace := (relinked_addImport u.module i.name i.space s).1
    have hunit : (addImport i.name (σ.space i.space) (u.rename σ) s').1.2 = (addImport i.name i.space u s).1.2.rename σ := by
      rw [addImport_apply, addImport_apply]
      simp only [FileUnit.rename, ← hm]
    have hnext : LinksAgree σ (addImport i.name i.space u s).1.2.module.space (addImport i.name i.space u s).2
        (addImport i.name (σ.space i.space) (u.rename σ) s').2 := by
      rw [addImport_apply]
      simp only [hspace]
      exact hlinks
    have hrest := ih hnext
    rw [← hunit] at hrest
    have hroot : (addImport i.name i.space u s).1.2.module.space = u.module.space := hspace
    rw [hroot] at hrest
    exact hrest

end Link

end Analysis

end Weft

/-!
## Bodies of renamed functions

The bodies of a unit are analyzed under a renaming as they are without, and only layouts of classes change.
-/

namespace Weft

/-- Layouts do not matter to symbols that mirror each other, on either side. -/
theorem Store.Mirrors.relaid {σ : Renaming} {s s' t t' : Store} (h : s.Mirrors σ s') (ht : s.Relaid t) (ht' : s'.Relaid t') :
    t.Mirrors σ t' where
  classes := by rw [ht.classCount, ht'.classCount]; exact h.classes
  interfaces := by rw [ht.interfaces, ht'.interfaces]; exact h.interfaces
  acyclic := (SameBases.ofRelaid ht).acyclic h.acyclic
  space n := by
    rw [Store.space, Store.space, ht.spaces, ht'.spaces]
    exact h.space n
  enumeration e := by
    rw [Store.enumeration, Store.enumeration, ht.enums, ht'.enums]
    exact h.enumeration e
  global g := by
    rw [Store.global, Store.global, ht.globals, ht'.globals]
    exact h.global g
  iface i := by
    rw [Store.iface, Store.iface, ht.interfaces, ht'.interfaces]
    exact h.iface i
  func f := by
    obtain ⟨_, heq⟩ := ht.func f
    obtain ⟨index, heq'⟩ := ht'.func (σ.func f)
    obtain ⟨_, hf⟩ := h.func f
    exact ⟨index, by rw [heq', hf, heq]; rfl⟩
  field f := by
    obtain ⟨_, heq⟩ := ht.field f
    obtain ⟨index, heq'⟩ := ht'.field (σ.field f)
    obtain ⟨_, hf⟩ := h.field f
    exact ⟨index, by rw [heq', hf, heq]; rfl⟩
  cls c := by
    obtain ⟨_, _, _, heq⟩ := ht.cls c
    obtain ⟨laidOut, fields, methods, heq'⟩ := ht'.cls (σ.cls c)
    obtain ⟨_, _, _, hc⟩ := h.cls c
    exact ⟨laidOut, fields, methods, by rw [heq', hc, heq]; rfl⟩

namespace Analysis

variable {σ : Renaming} {a a' s s' : Store}

/-! ## Functions -/

section Functions

theorem carries_forM {ι κ : Type} {k : ι → Analysis PUnit} {k' : κ → Analysis PUnit} {r : ι → κ} (xs : List ι)
    (hk : ∀ x ∈ xs, Carries σ s s' id (k x) (k' (r x))) : Carries σ s s' id (xs.forM k) ((xs.map r).forM k') := by
  induction xs with
  | nil => exact carries_pure rfl
  | cons x xs ih => exact (hk x List.mem_cons_self).bind fun _ => ih fun y hy => hk y (List.mem_cons_of_mem _ hy)

theorem carries_checks {ι : Type} {k k' : ι → Analysis PUnit} (xs : List ι) (hk : ∀ x, Carries σ s s' id (k x) (k' x)) :
    Carries σ s s' id (xs.forM k) (xs.forM k') := by
  have h := carries_forM (r := id) xs fun x _ => hk x
  rwa [List.map_id] at h

theorem carries_checkChain (yielded : Bool) (ns : List Typed.Node) :
    Carries σ s s' id (checkChain yielded ns) (checkChain yielded (Typed.renameForest σ ns)) := by
  induction ns with
  | nil => exact carries_pure rfl
  | cons n ns ih =>
    have hempty : (Typed.renameForest σ ns).isEmpty = ns.isEmpty := by cases ns <;> rfl
    obtain ⟨line, label, kids⟩ := n
    cases label with
    | call a name t args site =>
      cases site with
      | none => exact ih
      | some site =>
        change Carries σ s s' id (checkChain yielded (⟨line, .call a name t args (some site), kids⟩ :: ns))
          (checkChain yielded (⟨line, .call (a.rename σ) name (t.map (Ty.rename σ)) args (some site),
            Typed.renameForest σ kids⟩ :: Typed.renameForest σ ns))
        simp only [checkChain, Typed.Access.kind_rename, hempty]
        split
        · exact carries_guard Iff.rfl rfl (carries_guard Iff.rfl rfl ih)
        · exact ih
    | _ => exact ih

theorem carries_checkYields (ns : List Typed.Node) :
    Carries σ s s' id (checkYields ns) (checkYields (Typed.renameForest σ ns)) := by
  unfold checkYields
  rw [Typed.forestPreorder_rename]
  refine carries_forM _ fun n _ => ?_
  obtain ⟨line, label, kids⟩ := n
  cases label with
  | chain t yielded => exact carries_checkChain yielded kids
  | _ => exact carries_pure rfl

/-- The body of a function is analyzed under a renaming as it is without. -/
theorem carries_analyzeMethod (h : s.Mirrors σ s') (cls : Option ClassId) (m : Method) :
    Carries σ s s' (Method.rename σ) (analyzeMethod cls m) (analyzeMethod (cls.map σ.cls) (m.rename σ)) := by
  unfold analyzeMethod
  rw [show (m.rename σ).decl = m.decl from rfl]
  cases m.decl.body with
  | none => exact carries_pure rfl
  | some block =>
    refine carries_store_bind ?_
    simp only [Method.rename, h.func_signature, h.func_fullName]
    have hblock : ∀ start : Body, Carries σ s s' (Method.rename σ)
        (do
          let r ← inBody start (frame (visit (max (Tree.paramsHeight m.decl.params) block.height)) m.decl.params block)
          checkBody m.decl.span (s.func m.symbol).fullName r.2 block
          checkYields (Typed.stmtNodes r.1.2)
          return { m with
            frame := some { slots := r.2.slots, params := r.1.1, line := block.span.start.line, body := r.1.2 } })
        (do
          let r ← inBody (start.rename σ)
            (frame (visit (max (Tree.paramsHeight m.decl.params) block.height)) m.decl.params block)
          checkBody m.decl.span (s.func m.symbol).fullName r.2 block
          checkYields (Typed.stmtNodes r.1.2)
          return { m.rename σ with
            frame := some { slots := r.2.slots, params := r.1.1, line := block.span.start.line, body := r.1.2 } }) := by
      intro start
      refine (carries_inBody (carries_frame h (carries_visit h _) m.decl.params block)).bind fun r => ?_
      obtain ⟨⟨params, ss⟩, b⟩ := r
      refine (carries_checkBody m.decl.span _ b block).bind fun _ => ?_
      have hnodes : Typed.stmtNodes (ss.map (Typed.Stmt.rename σ)) = Typed.renameForest σ (Typed.stmtNodes ss) := by
        rw [← Typed.renameStmts_eq_map, Typed.stmtNodes_rename]
      simp only [Prod.map_apply, hnodes]
      exact (carries_checkYields (Typed.stmtNodes ss)).bind fun _ => carries_pure (by simp [Method.rename])
    cases cls with
    | none => exact hblock (.empty _)
    | some c => exact hblock (.method _ c)

/-- The initial value of a global variable is analyzed under a renaming as it is without. -/
theorem carries_analyzeInit (h : s.Mirrors σ s') (g : GlobalId) (x : Tree.Expr) :
    Carries σ s s' (Option.map (Typed.Expr.rename σ)) (analyzeInit g x) (analyzeInit (σ.global g) x) := by
  unfold analyzeInit
  refine carries_store_bind ?_
  rw [h.global]
  refine (carries_inBody (b := .empty default) ((carries_visit h x.height).expr x _)).bind fun r => ?_
  obtain ⟨⟨y, t⟩, b⟩ := r
  refine (carries_checkAssignable h).bind fun _ => ?_
  have hnodes : [(y.rename σ).node] = Typed.renameForest σ [y.node] := by
    rw [Typed.Expr.node_rename]
    rfl
  simp only [hnodes]
  exact (carries_checkYields [y.node]).bind fun _ => carries_pure rfl

end Functions

/-! ## Classes -/

section Classes

theorem carries_checkOverride (h : s.Mirrors σ s') (base : ClassId) (m : Method) :
    Carries σ s s' id (checkOverride base m) (checkOverride (σ.cls base) (m.rename σ)) := by
  unfold checkOverride
  refine carries_store_bind ?_
  simp only [Method.rename, h.func_name, h.classMember?, h.func_override]
  cases s.classMember? base (s.func m.symbol).name with
  | none => exact carries_ite Iff.rfl (carries_report rfl) (carries_pure rfl)
  | some x =>
    cases x with
    | func b =>
      simp only [Option.map_some, Sym.rename, h.func_virtual, h.func_override, h.func_sig, h.sameSignature, h.signatureName]
      refine carries_ite Iff.rfl (carries_report rfl) (carries_ite Iff.rfl (carries_report rfl) ?_)
      exact carries_ite Iff.rfl (carries_report rfl) (carries_pure rfl)
    | _ => exact carries_report rfl

theorem carries_overridesNothing (h : s.Mirrors σ s') {t t' : Store} (methods : List Method) :
    Carries σ t t' id
      (methods.forM fun m => do
        if (s.func m.symbol).override then report m.decl.span (.overridesNothing m.decl.name))
      ((methods.map (Method.rename σ)).forM fun m => do
        if (s'.func m.symbol).override then report m.decl.span (.overridesNothing m.decl.name)) := by
  refine carries_forM methods fun m _ => ?_
  simp only [Method.rename, h.func_override]
  exact carries_ite Iff.rfl (carries_report rfl) (carries_pure rfl)

theorem carries_checkFields (h : s.Mirrors σ s') {t t' : Store} (base : ClassId) (fields : List Tree.FieldDecl) :
    Carries σ t t' id
      (fields.forM fun f => do
        match s.classMember? base f.name with
        | some (.field _) => report f.span (.fieldInherited f.name)
        | _ => return)
      (fields.forM fun f => do
        match s'.classMember? (σ.cls base) f.name with
        | some (.field _) => report f.span (.fieldInherited f.name)
        | _ => return) := by
  refine carries_checks fields fun f => ?_
  rw [h.classMember?]
  cases s.classMember? base f.name with
  | none => exact carries_pure rfl
  | some x =>
    cases x with
    | field _ => exact carries_report rfl
    | _ => exact carries_pure rfl

/-- Symbols that mirror each other, with other layouts than in two stores. -/
structure Laying (σ : Renaming) (a a' s s' : Store) : Prop where
  mirrors : s.Mirrors σ s'
  left : a.Relaid s
  right : a'.Relaid s'

/-- A class is checked and laid out under a renaming as it is without. -/
theorem relates_checkClass (d : Tree.ClassDecl) (c : ClassId) (methods : List Method) :
    Relates σ (Laying σ a a') id (checkClass d c methods) (checkClass d (σ.cls c) (methods.map (Method.rename σ))) := by
  unfold checkClass
  refine relates_store_bind fun s s' ⟨h, _, _⟩ => ?_
  have hlayout : Relates σ (Laying σ a a') id (symbols (Store.layout c)) (symbols (Store.layout (σ.cls c))) := by
    refine relates_symbols fun s s' h => ⟨rfl, ?_⟩
    have hleft := Store.relays_layout (c := c) s
    have hright := Store.relays_layout (c := σ.cls c) s'
    exact ⟨h.mirrors.relaid hleft hright, h.left.trans hleft, h.right.trans hright⟩
  have hconformance : Relates σ (Laying σ a a') id
      (do ((← store).conformance c).forM fun e => report d.span (.conformance e))
      (do ((← store).conformance (σ.cls c)).forM fun e => report d.span (.conformance e)) := by
    refine relates_store_bind fun s s' ⟨h, _, _⟩ => ?_
    rw [h.conformance]
    exact relates_of_carries fun _ _ _ => carries_checks _ fun e => carries_report rfl
  rw [h.cls_super]
  cases hsuper : (s.cls c).super with
  | none =>
    exact (relates_of_carries fun _ _ _ => carries_overridesNothing h methods).bind fun _ => hlayout.bind fun _ => hconformance
  | some base =>
    refine (relates_of_carries fun t t' ht => carries_forM methods fun m _ =>
      carries_checkOverride ht.mirrors base m).bind fun _ => ?_
    exact (relates_of_carries fun _ _ _ => carries_checkFields h base d.fields).bind fun _ =>
      hlayout.bind fun _ => hconformance

end Classes

/-! ## Units -/

section Units

theorem relatesUnit_analyzeMethod (sc : Scope) (cls : Option ClassId) (m : Method) :
    RelatesUnit σ (Laying σ a a') (Method.rename σ) (attempt sc m (analyzeMethod cls m))
      (attempt (sc.rename σ) (m.rename σ) (analyzeMethod (cls.map σ.cls) (m.rename σ))) :=
  (relates_of_carries fun _ _ h => carries_analyzeMethod h.mirrors cls m).attempt rfl

theorem relatesUnit_analyzeInit (sc : Scope) (g : GlobalId) (x : Tree.Expr) :
    RelatesUnit σ (Laying σ a a') (Option.map (Typed.Expr.rename σ)) (attempt sc none (analyzeInit g x))
      (attempt (sc.rename σ) none (analyzeInit (σ.global g) x)) :=
  (relates_of_carries fun _ _ h => carries_analyzeInit h.mirrors g x).attempt rfl

/-- The bodies of a declaration are analyzed under a renaming as they are without. -/
theorem relatesUnit_analyzeItem (i : Item) :
    RelatesUnit σ (Laying σ a a') (Item.rename σ) (analyzeItem i) (analyzeItem (i.rename σ)) := by
  cases i with
  | func sc m => exact (relatesUnit_analyzeMethod sc none m).bind fun m => relatesUnit_pure rfl
  | cls sc d c methods =>
    have hcheck : RelatesUnit σ (Laying σ a a') id (attempt sc () (checkClass d c methods))
        (attempt (sc.rename σ) () (checkClass d (σ.cls c) (methods.map (Method.rename σ)))) :=
      (relates_checkClass d c methods).attempt rfl
    have hmethods : RelatesUnit σ (Laying σ a a') (List.map (Method.rename σ))
        (methods.mapM fun m => attempt sc m (analyzeMethod (some c) m))
        ((methods.map (Method.rename σ)).mapM fun m => attempt (sc.rename σ) m (analyzeMethod (some (σ.cls c)) m)) :=
      relatesUnit_mapM methods fun m _ => relatesUnit_analyzeMethod sc (some c) m
    exact hcheck.bind fun _ => hmethods.bind fun ms => relatesUnit_pure rfl
  | iface sc d i methods => exact relatesUnit_pure rfl
  | global sc d type g init =>
    rcases hinit : d.init with _ | x <;> simp only [Item.rename, analyzeItem, hinit]
    · exact relatesUnit_pure rfl
    · exact (relatesUnit_analyzeInit sc g x).bind fun y => relatesUnit_pure rfl

/-- The bodies of a unit are analyzed under a renaming as they are without, and only layouts change. -/
theorem bodies_rename {p p' : Project} {u : FileUnit} (hfresh : u.IsFresh) (h : s.Mirrors σ s') :
    (runPhase p' .bodies (u.rename σ) s').1.2 = (runPhase p .bodies u s).1.2.rename σ ∧
      Laying σ s s' (runPhase p .bodies u s).2 (runPhase p' .bodies (u.rename σ) s').2 := by
  obtain ⟨tree, items, imports, hsrc⟩ := hfresh
  exact mapItems_rename hsrc (relatesUnit_mapM items fun i _ => relatesUnit_analyzeItem i) ⟨h, .refl s, .refl s'⟩

end Units

end Analysis

end Weft

/-!
## Declarations of different classes and interfaces

Every declaration of a class or an interface makes a symbol of its own, so no two declarations of a project are of the same
class or interface.
-/

namespace Weft.Analysis

/-- The symbols of declarations were made, each for one declaration. -/
structure HeadsApart (s s' : Store) (items : List Item) : Prop where
  below : s.Below s'
  between : ∀ i ∈ items, ∀ k n, i.Heads k n → s.count k ≤ n ∧ n < s'.count k
  apart : items.Pairwise Item.Apart

section HeadsApart

variable {s s' s'' : Store} {items items' : List Item} {pl : Place} {st st' : State} {module : String} {sc : Scope}

theorem HeadsApart.trans (h : HeadsApart s s' items) (h' : HeadsApart s' s'' items') : HeadsApart s s'' (items ++ items') where
  below := h.below.trans h'.below
  between i hi k n hn := by
    rcases List.mem_append.mp hi with hi | hi
    · obtain ⟨hlo, hhi⟩ := h.between i hi k n hn
      exact ⟨hlo, hhi.trans_le (h'.below k)⟩
    · obtain ⟨hlo, hhi⟩ := h'.between i hi k n hn
      exact ⟨(h.below k).trans hlo, hhi⟩
  apart := List.pairwise_append.mpr ⟨h.apart, h'.apart, fun i hi j hj k n hn hn' =>
    Nat.not_lt_of_le (h'.between j hj k n hn').1 (h.between i hi k n hn).2⟩

theorem headsApart_of_option {o : Option Item} (h : s.Below s') (ho : ∀ i ∈ o, ∀ k n, i.Heads k n → s.count k ≤ n ∧ n < s'.count k) :
    HeadsApart s s' o.toList where
  below := h
  between i hi := ho i (Option.mem_toList.mp hi)
  apart := by cases o <;> simp

theorem headsApart_outlineFunc {d : Tree.FuncDecl} {r : Option Item} (h : Accepts (outlineFunc module sc d) pl st r st') :
    HeadsApart st.store st'.store r.toList := by
  refine headsApart_of_option ((moves_outlineFunc outlineMoves_below).accepted h) ?_
  simp only [outlineFunc, accepts_guard, accepts_store_bind] at h
  obtain ⟨f, st₁, -, h⟩ := accepts_bind.mp h.2
  obtain ⟨ok, st₂, -, h⟩ := accepts_bind.mp h
  split at h <;> obtain ⟨rfl, -⟩ := accepts_pure.mp h <;> simp [Item.Heads]

theorem headsApart_outlineGlobal {d : Tree.VarDecl} {r : Option Item} (h : Accepts (outlineGlobal sc d) pl st r st') :
    HeadsApart st.store st'.store r.toList := by
  refine headsApart_of_option ((moves_outlineGlobal outlineMoves_below.toScopeMoves).accepted h) ?_
  unfold outlineGlobal at h
  split at h
  · obtain ⟨_, _, -, h⟩ := accepts_bind.mp h
    obtain ⟨rfl, -⟩ := accepts_pure.mp h
    simp
  · rw [accepts_store_bind] at h
    obtain ⟨g, st₁, -, h⟩ := accepts_bind.mp h
    obtain ⟨ok, st₂, -, h⟩ := accepts_bind.mp h
    split at h <;> obtain ⟨rfl, -⟩ := accepts_pure.mp h <;> simp [Item.Heads]
  · obtain ⟨_, _, -, h⟩ := accepts_bind.mp h
    obtain ⟨rfl, -⟩ := accepts_pure.mp h
    simp

theorem headsApart_outlineClass {d : Tree.ClassDecl} {r : Option Item} (h : Accepts (outlineClass module sc d) pl st r st') :
    HeadsApart st.store st'.store r.toList := by
  refine headsApart_of_option ((moves_outlineClass outlineMoves_below).accepted h) ?_
  simp only [outlineClass, accepts_store_bind] at h
  obtain ⟨c, st₁, hc, h⟩ := accepts_bind.mp h
  obtain ⟨rfl, rfl⟩ := accepts_symbols.mp hc
  obtain ⟨ok, st₂, hok, h⟩ := accepts_bind.mp h
  have hdefine := (moves_unique (moves_define outlineMoves_below.toScopeMoves)).accepted hok
  obtain ⟨rfl, -, -⟩ := accepts_unique.mp hok
  rw [if_pos rfl] at h
  obtain ⟨_, st₃, hfields, h⟩ := accepts_bind.mp h
  have hmembers : Moves Store.Below (d.fields.forM fun f => do
      let field ← symbols <| Store.addField
        { name := f.name, type := none, owner := none, index := -1, native := false }
      let _ ← unique f.span (Store.defineMember ⟨st.store.classes.size⟩ (.field field))) :=
    moves_forM fun f _ => (moves_symbols (outlineMoves_below.addField _)).bind fun _ =>
      (moves_unique (moves_defineMember outlineMoves_below)).bind fun _ => moves_pure
  obtain ⟨ms, st₄, hms, h⟩ := accepts_bind.mp h
  obtain ⟨rfl, rfl⟩ := accepts_pure.mp h
  have hrest := (hdefine.trans (hmembers.accepted hfields)).trans ((moves_outlineMethods outlineMoves_below).accepted hms) .cls
  rintro i hi k n hn
  obtain rfl := Option.mem_some.mp hi
  obtain ⟨rfl, rfl⟩ := hn
  refine ⟨Nat.le_refl _, Nat.lt_of_lt_of_le ?_ hrest⟩
  rw [Store.count_addClass]
  exact Nat.lt_succ_self _

theorem headsApart_outlineInterface {d : Tree.InterfaceDecl} {r : Option Item}
    (h : Accepts (outlineInterface module sc d) pl st r st') : HeadsApart st.store st'.store r.toList := by
  refine headsApart_of_option ((moves_outlineInterface outlineMoves_below).accepted h) ?_
  simp only [outlineInterface, accepts_store_bind] at h
  obtain ⟨j, st₁, hj, h⟩ := accepts_bind.mp h
  obtain ⟨rfl, rfl⟩ := accepts_symbols.mp hj
  obtain ⟨ok, st₂, hok, h⟩ := accepts_bind.mp h
  have hdefine := (moves_unique (moves_define outlineMoves_below.toScopeMoves)).accepted hok
  obtain ⟨rfl, -, -⟩ := accepts_unique.mp hok
  rw [if_pos rfl] at h
  obtain ⟨ms, st₃, hms, h⟩ := accepts_bind.mp h
  obtain ⟨rfl, rfl⟩ := accepts_pure.mp h
  have hrest := hdefine.trans ((moves_outlineSignatures outlineMoves_below).accepted hms) .iface
  rintro i hi k n hn
  obtain rfl := Option.mem_some.mp hi
  obtain ⟨rfl, rfl⟩ := hn
  refine ⟨Nat.le_refl _, Nat.lt_of_lt_of_le ?_ hrest⟩
  rw [Store.count_addInterface]
  exact Nat.lt_succ_self _

theorem headsApart_of_below (h : s.Below s') : HeadsApart s s' [] := ⟨h, nofun, .nil⟩

mutual

theorem headsApart_outlineDecl {module : String} {sc : Scope} {st st' : State} : (d : Tree.Decl) → {r : List Item} →
    Accepts (outlineDecl module sc d) pl st r st' → HeadsApart st.store st'.store r
  | .space span path decls, r, h => by
    rw [outlineDecl] at h
    obtain ⟨n, st₁, hn, h⟩ := accepts_bind.mp h
    have hspace := headsApart_of_below ((moves_childSpace outlineMoves_below.toScopeMoves).accepted hn)
    split at h
    · obtain ⟨rfl, rfl⟩ := accepts_pure.mp h
      exact hspace
    · exact hspace.trans (headsApart_outlineDecls decls h)
  | .func d, r, h => by
    rw [outlineDecl] at h
    obtain ⟨o, st₁, ho, h⟩ := accepts_bind.mp h
    obtain ⟨rfl, rfl⟩ := accepts_pure.mp h
    exact headsApart_outlineFunc ho
  | .cls d, r, h => by
    rw [outlineDecl] at h
    obtain ⟨o, st₁, ho, h⟩ := accepts_bind.mp h
    obtain ⟨rfl, rfl⟩ := accepts_pure.mp h
    exact headsApart_outlineClass ho
  | .iface d, r, h => by
    rw [outlineDecl] at h
    obtain ⟨o, st₁, ho, h⟩ := accepts_bind.mp h
    obtain ⟨rfl, rfl⟩ := accepts_pure.mp h
    exact headsApart_outlineInterface ho
  | .enumeration d, r, h => by
    rw [outlineDecl] at h
    obtain ⟨o, st₁, ho, h⟩ := accepts_bind.mp h
    obtain ⟨rfl, rfl⟩ := accepts_pure.mp h
    exact headsApart_of_below ((moves_outlineEnum outlineMoves_below.toScopeMoves).accepted ho)
  | .var d, r, h => by
    rw [outlineDecl] at h
    obtain ⟨o, st₁, ho, h⟩ := accepts_bind.mp h
    obtain ⟨rfl, rfl⟩ := accepts_pure.mp h
    exact headsApart_outlineGlobal ho

/-- The declarations of a file are of different classes and interfaces. -/
theorem headsApart_outlineDecls {module : String} {sc : Scope} {st st' : State} : (ds : List Tree.Decl) → {r : List Item} →
    Accepts (outlineDecls module sc ds) pl st r st' → HeadsApart st.store st'.store r
  | [], r, h => by
    rw [outlineDecls] at h
    obtain ⟨rfl, rfl⟩ := accepts_pure.mp h
    exact headsApart_of_below (.refl _)
  | d :: ds, r, h => by
    rw [outlineDecls] at h
    obtain ⟨items, st₁, hitems, h⟩ := accepts_bind.mp h
    obtain ⟨more, st₂, hmore, h⟩ := accepts_bind.mp h
    obtain ⟨rfl, rfl⟩ := accepts_pure.mp h
    exact (headsApart_outlineDecl d hitems).trans (headsApart_outlineDecls ds hmore)

end

end HeadsApart

section Units

variable {p : Project} {us us' : List FileUnit} {u u' : FileUnit} {s s' : Store}

theorem goes_outline_headsApart (hu : u.IsFresh) (h : Goes outline u s () u' s') : HeadsApart s s' u'.items := by
  obtain ⟨tree, items, imports, hsrc⟩ := hu
  obtain ⟨items', st, hitems, rfl, rfl⟩ := goes_outline_fresh hsrc h
  have hheads := headsApart_outlineDecls _ hitems
  have hindex : HeadsApart st.store (indexGlobals u.module items' st.store).2 [] := headsApart_of_below below_indexGlobals
  simpa [FileUnit.items] using hheads.trans hindex

/-- The declarations of a project are of different classes and interfaces. -/
theorem Sweep.headsApart (hus : ∀ u ∈ us, u.IsFresh) (h : Sweep p .outline us s us' s') :
    HeadsApart s s' (us'.flatMap FileUnit.items) := by
  induction h with
  | nil => exact headsApart_of_below (.refl _)
  | cons head tail ih =>
    exact (goes_outline_headsApart (hus _ List.mem_cons_self) head).trans (ih fun v hv => hus v (List.mem_cons_of_mem _ hv))

end Units

end Weft.Analysis

/-!
## Phases of renamed projects

Each unit has symbols of its own, and in each phase it changes these only. What a phase makes of a unit and of its counterpart
under other identities therefore does not depend on the order in which the units have their turns.
-/

namespace Weft.Analysis

/-- Modules of different names own different symbols. -/
def OwnersApart (own : String → SymKind → Nat → Prop) : Prop := ∀ m n, m ≠ n → ∀ k i, own m k i → ¬own n k i

section Stages

variable {σ : Renaming} {own : String → SymKind → Nat → Prop} {p p' : Project} {us vs : List FileUnit} {s s' t t' : Store}
  {P Q : FileUnit → FileUnit → Prop} {ph : Phase}

/-! ## Imports -/

instance : Std.Refl (@Eq Store) := ⟨fun _ => rfl⟩

instance : IsTrans Store (@Eq Store) := ⟨fun _ _ _ => Eq.trans⟩

theorem store_linkImports (u : FileUnit) (s : Store) : (linkImports p u s).2 = s := by
  rcases hsrc : u.source with ⟨tree, items, imports⟩ | ⟨record, names, pending⟩
  · exact ((movesUnit_linkImports (R := Eq)) u s ⟨tree, items, imports, hsrc⟩).1.symm
  · rw [linkImports_cached hsrc]

theorem after_linkImports (e : Turn) : e.after p .linkImports = e.store := store_linkImports e.unit e.store

theorem store_of_linkImports_turn {e : Turn} (he : e ∈ turns p .linkImports us s) : e.store = s :=
  keeps_turns_before (Q := (· = s)) (fun e _ h => (after_linkImports e).trans h) rfl he

theorem runUnits_linkImports (p : Project) (us : List FileUnit) (s : Store) : (runUnits p us .linkImports s).2 = s :=
  keeps_turns (Q := (· = s)) (fun e _ h => (after_linkImports e).trans h) rfl

/-- Imports are resolved for each unit and its counterpart. -/
theorem Paired.linkImports (h : Paired P us vs)
    (hstep : ∀ u ∈ us, ∀ v ∈ vs, v.module.name = u.module.name → P u v →
      Q (Analysis.linkImports p u s).1.2 (Analysis.linkImports p' v t).1.2) :
    Paired Q (runUnits p us .linkImports s).1 (runUnits p' vs .linkImports t).1 := by
  intro u₁ hu₁
  obtain ⟨e, he, rfl⟩ := exists_turn_result hu₁
  obtain ⟨v, hv, hname, hP⟩ := h e.unit (unit_mem_of_turn he)
  obtain ⟨e', he', rfl⟩ := exists_turn p' .linkImports t hv
  refine ⟨e'.result p' .linkImports, result_mem_of_turn he', ?_, ?_⟩
  · rw [Turn.result_name, Turn.result_name]
    exact hname
  · have hstep := hstep e.unit (unit_mem_of_turn he) e'.unit hv hname hP
    rw [← store_of_linkImports_turn he, ← store_of_linkImports_turn he'] at hstep
    exact hstep

/-- The root namespace of a module belongs to it. -/
def OwnRoots (own : String → SymKind → Nat → Prop) (us : List FileUnit) : Prop :=
  ∀ u ∈ us, own u.module.name .space u.module.space.index

theorem OwnRoots.ne (h : OwnRoots own us) (hown : OwnersApart own) {u : FileUnit} (hu : u ∈ us) {name : String} {n : NamespaceId}
    (hname : name ≠ u.module.name) (hn : own name .space n.index) : n ≠ u.module.space := by
  rintro rfl
  exact hown _ _ hname _ _ hn (h u hu)

/-- Owners under other identities. -/
def imageOwn (σ : Renaming) (own : String → SymKind → Nat → Prop) (name : String) : SymKind → Nat → Prop := σ.image (own name)

theorem OwnersApart.image (h : OwnersApart own) : OwnersApart (imageOwn σ own) := by
  rintro m n hne k _ ⟨i, hi, rfl⟩ ⟨j, hj, heq⟩
  obtain rfl := σ.index_injective k heq
  exact h m n hne k _ hi hj

theorem LinksAgree.left {root other : NamespaceId} (h : LinksAgree σ root s t) (hr : s.Relinked other s') (hne : root ≠ other) :
    LinksAgree σ root s' t := by
  obtain ⟨hroom, hroom', heq⟩ := h
  exact ⟨by rw [hr.size]; exact hroom, hroom', by rw [hr.space root hne]; exact heq⟩

theorem LinksAgree.right {root other : NamespaceId} (h : LinksAgree σ root s t) (hr : t.Relinked other t')
    (hne : σ.space root ≠ other) : LinksAgree σ root s t' := by
  obtain ⟨hroom, hroom', heq⟩ := h
  exact ⟨hroom, by rw [hr.size]; exact hroom', by rw [hr.space _ hne]; exact heq⟩

/-- Modules are made visible in each unit and in its counterpart. -/
theorem Paired.addImports (h : Paired P us vs) (hnames : (us.map (·.module.name)).Nodup)
    (hnames' : (vs.map (·.module.name)).Nodup) (hown : OwnersApart own) (hroots : OwnRoots own us)
    (hroots' : OwnRoots (imageOwn σ own) vs) (hlinks : ∀ u ∈ us, LinksAgree σ u.module.space s t)
    (hstep : ∀ u ∈ us, ∀ v ∈ vs, v.module.name = u.module.name → ∀ s t, P u v → LinksAgree σ u.module.space s t →
      Q (Analysis.addImports p u s).1.2 (Analysis.addImports p' v t).1.2 ∧
        LinksAgree σ u.module.space (Analysis.addImports p u s).2 (Analysis.addImports p' v t).2) :
    Paired (fun u v => Q u v ∧ LinksAgree σ u.module.space (runUnits p us .addImports s).2 (runUnits p' vs .addImports t).2)
      (runUnits p us .addImports s).1 (runUnits p' vs .addImports t).1 := by
  let R (P : FileUnit → FileUnit → Prop) (u v : FileUnit) (s t : Store) : Prop :=
    own u.module.name .space u.module.space.index ∧ v.module.name = u.module.name ∧ P u v ∧ LinksAgree σ u.module.space s t
  have hleft : ∀ {P : FileUnit → FileUnit → Prop} {u v : FileUnit} {t : Store}, ∀ d ∈ Analysis.turns p .addImports us s,
      u.module.name ≠ d.name → R P u v d.store t → R P u v (d.after p .addImports) t := by
    rintro P u v t d hd hne ⟨hu, hname, hP, hlinks⟩
    exact ⟨hu, hname, hP, hlinks.left (relinks_addImports d.unit d.store).2 (hroots.ne hown (unit_mem_of_turn hd) hne hu)⟩
  have hright : ∀ {P : FileUnit → FileUnit → Prop} {u v : FileUnit} {s : Store}, ∀ d ∈ Analysis.turns p' .addImports vs t,
      v.module.name ≠ d.name → R P u v s d.store → R P u v s (d.after p' .addImports) := by
    rintro P u v s d hd hne ⟨hu, hname, hP, hlinks⟩
    have hneq := hroots'.ne hown.image (unit_mem_of_turn hd) (hname ▸ hne) (n := σ.space u.module.space) ⟨_, hu, rfl⟩
    exact ⟨hu, hname, hP, hlinks.right (relinks_addImports d.unit d.store).2 hneq⟩
  have hpaired : Paired (fun u v => R P u v s t) us vs := by
    intro u hu
    obtain ⟨v, hv, hname, hP⟩ := h u hu
    exact ⟨v, hv, hname, hroots u hu, hname, hP, hlinks u hu⟩
  have hresult := hpaired.turns hnames hnames' hleft hright (S := R Q) hleft hright
    fun d hd v t hv hname ⟨hu, _, hP, hlinks⟩ => by
    obtain ⟨hQ, hlinks'⟩ := hstep d.unit (unit_mem_of_turn hd) v hv hname d.store t hP hlinks
    have hroot : (d.result p .addImports).module.space = d.unit.module.space := (relinks_addImports d.unit d.store).1
    have hname₁ : (d.result p .addImports).module.name = d.name := Turn.result_name
    have hname₂ : (runPhase p' .addImports v t).1.2.module.name = v.module.name := named_runPhase .addImports v t rfl
    refine ⟨?_, ?_, hQ, ?_⟩
    · rw [hroot, hname₁]
      exact hu
    · rw [hname₁, hname₂, hname]
    · rw [hroot]
      exact hlinks'
  intro u hu
  obtain ⟨v, hv, hname, -, -, hQ, hlinks'⟩ := hresult u hu
  exact ⟨v, hv, hname, hQ, hlinks'⟩

/-- The root namespaces are the only ones that imports change. -/
theorem relinked_runUnits (p : Project) (us : List FileUnit) (s : Store) :
    (runUnits p us .addImports s).2 = { s with spaces := (runUnits p us .addImports s).2.spaces } ∧
    (runUnits p us .addImports s).2.spaces.size = s.spaces.size ∧
    ∀ n, n ∉ roots us → (runUnits p us .addImports s).2.space n = s.space n := by
  refine keeps_turns (Q := fun t => t = { s with spaces := t.spaces } ∧ t.spaces.size = s.spaces.size ∧
    ∀ n, n ∉ roots us → t.space n = s.space n) (fun e he ⟨hrest, hsize, hspace⟩ => ?_) ⟨rfl, rfl, fun _ _ => rfl⟩
  have hr : e.store.Relinked e.unit.module.space (e.after p .addImports) := (relinks_addImports e.unit e.store).2
  refine ⟨?_, hr.size.trans hsize, fun n hn => ?_⟩
  · rw [hr.rest, hrest]
  · rw [hr.space n fun heq => hn (List.mem_map.mpr ⟨e.unit, unit_mem_of_turn he, heq.symm⟩)]
    exact hspace n hn

/-- Once all modules are made visible, the symbols agree as they did before. -/
theorem agrees_addImports (h : s.Agrees σ (fun _ _ => True) t)
    (hlinks : ∀ u ∈ us, LinksAgree σ u.module.space (runUnits p us .addImports s).2 (runUnits p' vs .addImports t).2)
    (hroots : ∀ v ∈ vs, ∃ u ∈ us, v.module.space = σ.space u.module.space) :
    (runUnits p us .addImports s).2.Agrees σ (fun _ _ => True) (runUnits p' vs .addImports t).2 := by
  obtain ⟨hrest, -, hspace⟩ := relinked_runUnits p us s
  obtain ⟨hrest', -, hspace'⟩ := relinked_runUnits p' vs t
  have hnamespaces : ∀ n, (runUnits p' vs .addImports t).2.space (σ.space n) =
      ((runUnits p us .addImports s).2.space n).rename σ := by
    intro n
    by_cases hn : n ∈ roots us
    · obtain ⟨u, hu, rfl⟩ := List.mem_map.mp hn
      exact (hlinks u hu).2.2
    · rw [hspace n hn, hspace' (σ.space n)]
      · exact h.space n trivial
      · intro hmem
        obtain ⟨v, hv, heq⟩ := List.mem_map.mp hmem
        obtain ⟨u, hu, hroot⟩ := hroots v hv
        obtain rfl := σ.space.injective (heq.symm.trans hroot)
        exact hn (List.mem_map_of_mem hu)
  rw [hrest, hrest']
  exact { h with space := fun n _ => hnamespaces n }

/-! ## Types -/

/-- In a phase that finds types or bases, each unit changes its own symbols only. -/
theorem revised_turns (p : Project) (ph : Phase) (hstep : ∀ u ∈ us, ∀ s' : Store, (∀ name, s'.Inside (own name)) →
      s'.Revised (own u.module.name) (runPhase p ph u s').2) (hs : ∀ name, s.Inside (own name)) :
    (∀ d ∈ turns p ph us s, d.store.Revised (own d.name) (d.after p ph)) ∧
      s.Revised (fun k i => ∃ u ∈ us, own u.module.name k i) (runUnits p us ph s).2 ∧
      ∀ name, (runUnits p us ph s).2.Inside (own name) := by
  have hinside : ∀ d ∈ turns p ph us s, (∀ name, d.store.Inside (own name)) → ∀ name, (d.after p ph).Inside (own name) :=
    fun d hd h name => (hstep d.unit (unit_mem_of_turn hd) d.store h).inside (h name)
  have hbefore : ∀ d ∈ turns p ph us s, ∀ name, d.store.Inside (own name) :=
    fun d hd => keeps_turns_before (Q := fun t => ∀ name, t.Inside (own name)) hinside hs hd
  have hrevised : ∀ d ∈ turns p ph us s, d.store.Revised (own d.name) (d.after p ph) :=
    fun d hd => hstep d.unit (unit_mem_of_turn hd) d.store (hbefore d hd)
  refine ⟨hrevised, ?_, keeps_turns (Q := fun t => ∀ name, t.Inside (own name)) hinside hs⟩
  exact keeps_turns (Q := fun t => s.Revised (fun k i => ∃ u ∈ us, own u.module.name k i) t)
    (fun d hd h => h.trans ((hrevised d hd).mono fun k i hi => ⟨d.unit, unit_mem_of_turn hd, hi⟩)) (.refl s)

theorem Typing.left {own own' : SymKind → Nat → Prop} (h : Typing σ own s t) (hr : s.Revised own' s')
    (hapart : ∀ k i, own k i → ¬own' k i) : Typing σ own s' t where
  named := hr.named_left h.named
  types := h.types.left hr hapart
  room k i hi := by
    rw [hr.count]
    exact h.room k i hi
  inside := hr.inside h.inside

theorem Typing.right {own own' : SymKind → Nat → Prop} (h : Typing σ own s t) (hr : t.Revised (σ.image own') t')
    (hapart : ∀ k i, own k i → ¬own' k i) : Typing σ own s t' where
  named := hr.named_right h.named
  types := h.types.right hr hapart
  room k i hi := by
    rw [hr.count]
    exact h.room k i hi
  inside := h.inside

/-- Types are found for each unit and its counterpart. -/
theorem Paired.types (h : Paired P us vs) (hnames : (us.map (·.module.name)).Nodup) (hnames' : (vs.map (·.module.name)).Nodup)
    (hown : OwnersApart own) (htyping : ∀ u ∈ us, Typing σ (own u.module.name) s t)
    (hleft : ∀ d ∈ Analysis.turns p .types us s, d.store.Revised (own d.name) (d.after p .types))
    (hright : ∀ d ∈ Analysis.turns p' .types vs t, d.store.Revised (σ.image (own d.name)) (d.after p' .types))
    (hstep : ∀ d ∈ Analysis.turns p .types us s, ∀ v ∈ vs, v.module.name = d.name → ∀ t, P d.unit v →
      Typing σ (own d.name) d.store t → Q (d.result p .types) (runPhase p' .types v t).1.2 ∧
        Typing σ (own d.name) (d.after p .types) (runPhase p' .types v t).2) :
    Paired (fun u v => Q u v ∧ Typing σ (own u.module.name) (runUnits p us .types s).2 (runUnits p' vs .types t).2)
      (runUnits p us .types s).1 (runUnits p' vs .types t).1 := by
  let R (P : FileUnit → FileUnit → Prop) (u v : FileUnit) (s t : Store) : Prop :=
    v.module.name = u.module.name ∧ P u v ∧ Typing σ (own u.module.name) s t
  have hl : ∀ {P : FileUnit → FileUnit → Prop} {u v : FileUnit} {t : Store}, ∀ d ∈ Analysis.turns p .types us s,
      u.module.name ≠ d.name → R P u v d.store t → R P u v (d.after p .types) t :=
    fun d hd hne ⟨hname, hP, htyping⟩ => ⟨hname, hP, htyping.left (hleft d hd) (hown _ _ hne)⟩
  have hr : ∀ {P : FileUnit → FileUnit → Prop} {u v : FileUnit} {s : Store}, ∀ d ∈ Analysis.turns p' .types vs t,
      v.module.name ≠ d.name → R P u v s d.store → R P u v s (d.after p' .types) :=
    fun d hd hne ⟨hname, hP, htyping⟩ => ⟨hname, hP, htyping.right (hright d hd) (hown _ _ (hname ▸ hne))⟩
  have hpaired : Paired (fun u v => R P u v s t) us vs := by
    intro u hu
    obtain ⟨v, hv, hname, hP⟩ := h u hu
    exact ⟨v, hv, hname, hname, hP, htyping u hu⟩
  have hresult := hpaired.turns hnames hnames' hl hr (S := R Q) hl hr fun d hd v t hv hname ⟨_, hP, htyping⟩ => by
    obtain ⟨hQ, htyping'⟩ := hstep d hd v hv hname t hP htyping
    have hname₁ : (d.result p .types).module.name = d.name := Turn.result_name
    have hname₂ : (runPhase p' .types v t).1.2.module.name = v.module.name := named_runPhase .types v t rfl
    refine ⟨?_, hQ, ?_⟩
    · rw [hname₁, hname₂, hname]
    · rw [hname₁]
      exact htyping'
  intro u hu
  obtain ⟨v, hv, hname, -, hQ, htyping'⟩ := hresult u hu
  exact ⟨v, hv, hname, hQ, htyping'⟩

/-- Once all types are found, they agree everywhere if they did before. -/
theorem typesAgree_runUnits (h : s.TypesAgree σ (fun _ _ => True) t)
    (hleft : s.Revised (fun k i => ∃ u ∈ us, own u.module.name k i) s')
    (hright : t.Revised (σ.image fun k i => ∃ u ∈ us, own u.module.name k i) t')
    (hunits : ∀ u ∈ us, s'.TypesAgree σ (own u.module.name) t') : s'.TypesAgree σ (fun _ _ => True) t' := by
  refine Store.typesAgree_of_cover fun k i => ?_
  by_cases hi : ∃ u ∈ us, own u.module.name k i
  · obtain ⟨u, hu, hown⟩ := hi
    exact ⟨_, hown, hunits u hu⟩
  · refine ⟨fun k i => ¬∃ u ∈ us, own u.module.name k i, hi, ?_⟩
    have hothers : s.TypesAgree σ (fun k i => ¬∃ u ∈ us, own u.module.name k i) t := h.mono fun _ _ _ => trivial
    exact (hothers.left hleft fun k i => id).right hright fun k i => id

/-! ## Bodies -/

/-- The bodies are analyzed for each unit and its counterpart, and only layouts change. -/
theorem Paired.bodies (h : Paired P us vs) (hback : ∀ v ∈ vs, ∃ u ∈ us, v.module.name = u.module.name ∧ P u v)
    (hnames : (us.map (·.module.name)).Nodup) (hnames' : (vs.map (·.module.name)).Nodup) (hm : s.Mirrors σ t)
    (hstep : ∀ u ∈ us, ∀ v ∈ vs, v.module.name = u.module.name → ∀ s t, P u v → s.Mirrors σ t →
      Q (runPhase p .bodies u s).1.2 (runPhase p' .bodies v t).1.2 ∧
        Laying σ s t (runPhase p .bodies u s).2 (runPhase p' .bodies v t).2) :
    Paired Q (runUnits p us .bodies s).1 (runUnits p' vs .bodies t).1 ∧
      Laying σ s t (runUnits p us .bodies s).2 (runUnits p' vs .bodies t).2 := by
  have hleft : ∀ {t : Store}, ∀ d ∈ Analysis.turns p .bodies us s, d.store.Mirrors σ t → d.store.Relaid (d.after p .bodies) := by
    intro t d hd hm
    obtain ⟨v, hv, hname, hP⟩ := h d.unit (unit_mem_of_turn hd)
    exact (hstep d.unit (unit_mem_of_turn hd) v hv hname d.store t hP hm).2.left
  have hright : ∀ {s : Store}, ∀ d ∈ Analysis.turns p' .bodies vs t, s.Mirrors σ d.store →
      d.store.Relaid (d.after p' .bodies) := by
    intro s d hd hm
    obtain ⟨u, hu, hname, hP⟩ := hback d.unit (unit_mem_of_turn hd)
    exact (hstep u hu d.unit (unit_mem_of_turn hd) hname s d.store hP hm).2.right
  have hlaid : Laying σ s t (runUnits p us .bodies s).2 (runUnits p' vs .bodies t).2 := by
    have hkept : (runUnits p us .bodies s).2.Mirrors σ t ∧ s.Relaid (runUnits p us .bodies s).2 :=
      keeps_turns (Q := fun s' => s'.Mirrors σ t ∧ s.Relaid s') (fun d hd ⟨hm, hr⟩ =>
        ⟨hm.relaid (hleft d hd hm) (.refl t), hr.trans (hleft d hd hm)⟩) ⟨hm, .refl s⟩
    obtain ⟨hm₁, hrelaid⟩ := hkept
    have hkept' : (runUnits p us .bodies s).2.Mirrors σ (runUnits p' vs .bodies t).2 ∧ t.Relaid (runUnits p' vs .bodies t).2 :=
      keeps_turns (Q := fun t' => (runUnits p us .bodies s).2.Mirrors σ t' ∧ t.Relaid t') (fun d hd ⟨hm, hr⟩ =>
        ⟨hm.relaid (.refl _) (hright d hd hm), hr.trans (hright d hd hm)⟩) ⟨hm₁, .refl t⟩
    obtain ⟨hm₂, hrelaid'⟩ := hkept'
    exact ⟨hm₂, hrelaid, hrelaid'⟩
  let R (P : FileUnit → FileUnit → Prop) (u v : FileUnit) (s t : Store) : Prop := P u v ∧ s.Mirrors σ t
  have hl : ∀ {P : FileUnit → FileUnit → Prop} {u v : FileUnit} {t : Store}, ∀ d ∈ Analysis.turns p .bodies us s,
      u.module.name ≠ d.name → R P u v d.store t → R P u v (d.after p .bodies) t :=
    fun d hd _ ⟨hP, hm⟩ => ⟨hP, hm.relaid (hleft d hd hm) (.refl _)⟩
  have hr : ∀ {P : FileUnit → FileUnit → Prop} {u v : FileUnit} {s : Store}, ∀ d ∈ Analysis.turns p' .bodies vs t,
      v.module.name ≠ d.name → R P u v s d.store → R P u v s (d.after p' .bodies) :=
    fun d hd _ ⟨hP, hm⟩ => ⟨hP, hm.relaid (.refl _) (hright d hd hm)⟩
  have hpaired : Paired (fun u v => R P u v s t) us vs := by
    intro u hu
    obtain ⟨v, hv, hname, hP⟩ := h u hu
    exact ⟨v, hv, hname, hP, hm⟩
  have hresult := hpaired.turns hnames hnames' hl hr (S := R Q) hl hr fun d hd v t hv hname ⟨hP, hm⟩ => by
    obtain ⟨hQ, hlaying⟩ := hstep d.unit (unit_mem_of_turn hd) v hv hname d.store t hP hm
    exact ⟨hQ, hlaying.mirrors⟩
  refine ⟨fun u hu => ?_, hlaid⟩
  obtain ⟨v, hv, hname, hQ, -⟩ := hresult u hu
  exact ⟨v, hv, hname, hQ⟩

end Stages

end Weft.Analysis
