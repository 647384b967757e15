import Weft.Proofs.Analysis.ChainNodes
import Weft.Typed.Node

/-!
# Updates of targets

Trees without effects, and the assignments that update a target without one.
-/

/-! ## Trees without effects

A tree is quiet if it calls nothing, makes no instance and has no lambda, at any depth.
-/

namespace Weft.Typed

/-- Whether a node calls a function, makes an instance or is a lambda. -/
def Label.isEffect : Label → Bool
  | .call a _ _ _ _ => a.kind.isCall
  | .new _ | .lambda _ _ => true
  | _ => false

/-- No node of a tree has an effect. -/
def Node.Quiet (n : Node) : Prop := ∀ k ∈ n.preorder, k.label.isEffect = false

theorem mem_forestPreorder {k : Node} {ns : List Node} : k ∈ forestPreorder ns ↔ ∃ n ∈ ns, k ∈ n.preorder := by
  induction ns with
  | nil => simp [forestPreorder]
  | cons n ns ih => simp [forestPreorder, ih]

theorem quiet_node {line : Nat} {label : Label} {kids : List Node} :
    Node.Quiet ⟨line, label, kids⟩ ↔ label.isEffect = false ∧ ∀ n ∈ kids, n.Quiet := by
  simp only [Node.Quiet, Node.preorder, List.mem_cons, forall_eq_or_imp, mem_forestPreorder]
  refine and_congr_right fun _ => ⟨fun h n hn k hk => h k ⟨n, hn, hk⟩, fun h k hk => ?_⟩
  obtain ⟨n, hn, hk⟩ := hk
  exact h n hn k hk

/-- An expression is quiet if its tree is. -/
def Expr.Quiet (x : Expr) : Prop := x.node.Quiet

variable {line : Nat}

theorem quiet_exprNodes {xs : List Expr} : (∀ n ∈ exprNodes xs, n.Quiet) ↔ ∀ x ∈ xs, x.Quiet := by
  induction xs with
  | nil => simp [exprNodes]
  | cons x xs ih => rw [exprNodes, List.forall_mem_cons, List.forall_mem_cons, ih, Expr.Quiet]

theorem quiet_literal {value : Literal} {t : Ty} : (Expr.literal line value t).Quiet := by
  change Node.Quiet ⟨line, .literal value, []⟩
  rw [quiet_node]
  exact ⟨rfl, fun n hn => (List.not_mem_nil hn).elim⟩

theorem quiet_unary {op : UnaryOp} {t : Option Ty} {x : Expr} (h : x.Quiet) : (Expr.unary line op t x).Quiet := by
  change Node.Quiet ⟨line, .unary op, [x.node]⟩
  rw [quiet_node, List.forall_mem_singleton]
  exact ⟨rfl, h⟩

theorem quiet_binary {op : BinaryOp} {t : Option Ty} {x y : Expr} (hx : x.Quiet) (hy : y.Quiet) :
    (Expr.binary line op t x y).Quiet := by
  change Node.Quiet ⟨line, .binary op, [x.node, y.node]⟩
  rw [quiet_node, List.forall_mem_cons, List.forall_mem_singleton]
  exact ⟨rfl, hx, hy⟩

theorem quiet_cast {kind : CastKind} {t : Option Ty} {x : Expr} (h : x.Quiet) : (Expr.cast line kind t x).Quiet := by
  change Node.Quiet ⟨line, .cast kind t, [x.node]⟩
  rw [quiet_node, List.forall_mem_singleton]
  exact ⟨rfl, h⟩

theorem quiet_chain {c : Chain} : (Expr.chain c).Quiet ↔ ∀ x ∈ c.links, x.Quiet := by
  obtain ⟨l, t, yielded, links⟩ := c
  change Node.Quiet ⟨l, .chain t yielded, exprNodes links⟩ ↔ _
  rw [quiet_node, quiet_exprNodes]
  exact and_iff_right rfl

theorem quiet_call {c : Call} : (Expr.call c).Quiet ↔ c.access.kind.isCall = false ∧ ∀ x ∈ c.children, x.Quiet := by
  obtain ⟨l, a, name, t, args, site, children⟩ := c
  change Node.Quiet ⟨l, .call a name t args site, exprNodes children⟩ ↔ _
  rw [quiet_node, quiet_exprNodes]
  rfl

theorem quiet_element {x : Expr} (h : x.Quiet) : (Append.element line x).node.Quiet := by
  change Node.Quiet ⟨line, .append, [x.node]⟩
  rw [quiet_node, List.forall_mem_singleton]
  exact ⟨rfl, h⟩

theorem quiet_entry {k x : Expr} (hk : k.Quiet) (hx : x.Quiet) : (Append.entry line k x).node.Quiet := by
  change Node.Quiet ⟨line, .append, [k.node, x.node]⟩
  rw [quiet_node, List.forall_mem_cons, List.forall_mem_singleton]
  exact ⟨rfl, hk, hx⟩

theorem quiet_collection {t : Ty} {items : List Append} (h : ∀ a ∈ items, a.node.Quiet) :
    (Expr.collection line t items).Quiet := by
  change Node.Quiet ⟨line, .collection t, appendNodes items⟩
  rw [quiet_node]
  refine ⟨rfl, ?_⟩
  induction items with
  | nil => exact fun n hn => (List.not_mem_nil hn).elim
  | cons a items ih =>
    obtain ⟨ha, hitems⟩ := List.forall_mem_cons.mp h
    rw [appendNodes, List.forall_mem_cons]
    exact ⟨ha, ih hitems⟩

end Weft.Typed

/-! ## Assignments that update their target

The target of such an assignment is analyzed twice: once to be read and once to be written. It may not have an effect, as
it is written; so neither of the two copies has one, and the value is in the tree only once.
-/

namespace Weft

namespace Tree

theorem firstEffect?_eq_none {xs : List Expr} : firstEffect? xs = none ↔ ∀ x ∈ xs, x.effect? = none := by
  induction xs with
  | nil => simp [firstEffect?]
  | cons x xs ih => rw [firstEffect?, Option.or_eq_none_iff, List.forall_mem_cons, ih]

theorem firstItemEffect?_eq_none {xs : List Item} : firstItemEffect? xs = none ↔ ∀ x ∈ xs, x.effect? = none := by
  induction xs with
  | nil => simp [firstItemEffect?]
  | cons x xs ih => rw [firstItemEffect?, Option.or_eq_none_iff, List.forall_mem_cons, ih]

theorem Item.effect?_call_ne_none (c : Call) : (Item.call c).effect? ≠ none := by
  obtain ⟨span, args⟩ := c
  rw [Item.effect?]
  exact Option.some_ne_none span

theorem Root.effect?_lambda_ne_none (fn : Lambda) : (Root.lambda fn).effect? ≠ none := by
  obtain ⟨span, coro, returns, params, body⟩ := fn
  rw [Root.effect?]
  exact Option.some_ne_none span

theorem Chain.parts_quiet {c : Chain} (h : (Expr.chain c).effect? = none) :
    c.root.effect? = none ∧ ∀ i ∈ c.parts, i.effect? = none := by
  obtain ⟨span, root, items⟩ := c
  rw [Expr.effect?, Option.or_eq_none_iff, firstItemEffect?_eq_none] at h
  refine ⟨h.1, ?_⟩
  unfold Chain.parts
  cases root with
  | name span name =>
    refine List.forall_mem_cons.mpr ⟨?_, h.2⟩
    rw [Item.effect?]
  | _ => exact h.2

end Tree

namespace Analysis

open Typed (Expr AccessSort quiet_call quiet_chain quiet_literal)

variable {clean : Prop} {pl : Place} {v : Visit} {m : Mode} {st : State}

/-! ## Chains -/

/-- What a visit makes of an expression without effect is quiet. -/
def Visit.Quiet (v : Visit) : Prop :=
  ∀ {clean : Prop} {pl x expect r}, x.effect? = none → Gives clean pl (v.expr x expect) r → r.1.Quiet

/-- Expressions that are quiet, but that the last of them may be an access with a written value as its last child. -/
inductive QuietBut (m : Mode) : List Expr → Prop where
  | all {links : List Expr} (h : ∀ x ∈ links, x.Quiet) (hend : endsInWrite links = false) : QuietBut m links
  | last {init kids : List Expr} {c : Typed.Call} (hinit : ∀ x ∈ init, x.Quiet) (hc : c.access.kind.isCall = false)
    (hkids : ∀ x ∈ kids, x.Quiet) (hwrite : c.access.kind.isWrite = m.isWrite)
    (hchildren : c.children = kids ++ m.values) : QuietBut m (init ++ [Expr.call c])

theorem QuietBut.quiet {links : List Expr} (h : QuietBut .read links) : ∀ x ∈ links, x.Quiet := by
  cases h with
  | all h hend => exact h
  | last hinit hc hkids hwrite hchildren =>
    rw [Mode.values, List.append_nil] at hchildren
    rw [List.forall_mem_append, List.forall_mem_singleton, quiet_call, hchildren]
    exact ⟨hinit, hc, hkids⟩

theorem isCall_of_sort {sort : AccessSort} {c : Typed.Call} (h : c.access.sort = sort) (hf : sort ≠ .function)
    (hm : sort ≠ .method) (hp : sort ≠ .pointer) : c.access.kind.isCall = false := by
  subst h
  revert hf hm hp
  cases c.access <;> intro hf hm hp <;> first | rfl | exact absurd rfl hf | exact absurd rfl hm | exact absurd rfl hp

theorem Opens.quiet (hv : v.Quiet) {root : Tree.Root} {own : List Expr} {s : Stage} (h : Opens pl v root own s)
    (hroot : root.effect? = none) : ∀ x ∈ own, x.Quiet := by
  have hthis : ∀ {c : Typed.Call}, Accesses .read .name [] c → (Expr.call c).Quiet := by
    intro c h
    rw [quiet_call, h.children]
    exact ⟨isCall_of_sort h.sort (by decide) (by decide) (by decide), fun x hx => (List.not_mem_nil hx).elim⟩
  cases h with
  | name => exact fun x hx => (List.not_mem_nil hx).elim
  | implicit h => exact List.forall_mem_singleton.mpr (hthis h)
  | this h => exact List.forall_mem_singleton.mpr (hthis h)
  | base h => exact List.forall_mem_singleton.mpr (Typed.quiet_cast (hthis h))
  | paren h => exact List.forall_mem_singleton.mpr (hv (by rwa [Tree.Root.effect?] at hroot) h)
  | lambda h => exact absurd hroot (Tree.Root.effect?_lambda_ne_none _)

/-- The accesses for steps without effect are quiet but for the written value. -/
theorem Laid.quiet (hv : v.Quiet) {first s : Stage} {items : List Tree.Item} {own made : List Expr}
    (h : Laid pl v first m items made s) (hown : ∀ x ∈ own, x.Quiet) (hread : endsInWrite own = false)
    (hitems : ∀ i ∈ items, i.effect? = none) : QuietBut m (own ++ made) := by
  have add : ∀ {m : Mode} {made kids : List Expr} {c : Typed.Call} {sort : AccessSort}, QuietBut .read (own ++ made) →
      Accesses m sort kids c → sort = .name ∨ sort = .member ∨ sort = .index → (∀ x ∈ kids, x.Quiet) →
      QuietBut m (own ++ (made ++ [Expr.call c])) := by
    intro m made kids c sort hmade hc hsort hkids
    rw [← List.append_assoc]
    have hcall : c.access.kind.isCall = false := by
      rcases hsort with rfl | rfl | rfl <;> exact isCall_of_sort hc.sort (by decide) (by decide) (by decide)
    exact .last hmade.quiet hcall hkids hc.isWrite hc.children
  have hnil : ∀ x ∈ ([] : List Expr), x.Quiet := fun x hx => (List.not_mem_nil hx).elim
  induction h with
  | nil =>
    rw [List.append_nil]
    exact .all hown hread
  | enters h ih =>
    rw [List.forall_mem_append] at hitems
    refine .all (ih hitems.1).quiet (Bool.eq_false_iff.mpr fun hend => ?_)
    cases h.write hread hend
  | name h hc ih => exact add (ih (List.forall_mem_append.mp hitems).1) hc (.inl rfl) hnil
  | reference h hc hkids ih =>
    rw [List.forall_mem_append] at hitems
    rw [← List.append_assoc]
    refine .all ?_ ?_
    · rw [List.forall_mem_append, List.forall_mem_singleton, quiet_call, hkids]
      exact ⟨(ih hitems.1).quiet, isCall_of_sort hc (by decide) (by decide) (by decide), hnil⟩
    · rw [endsInWrite_append]
      exact Typed.Access.isWrite_eq_false (by rw [hc]; rfl)
  | literal h line n e ih =>
    rw [List.forall_mem_append] at hitems
    rw [← List.append_assoc]
    refine .all ?_ (by simp [endsInWrite])
    rw [List.forall_mem_append, List.forall_mem_singleton]
    exact ⟨(ih hitems.1).quiet, quiet_literal⟩
  | function h hc ih =>
    have hcall := hitems _ (List.mem_append_right _ (List.mem_cons_of_mem _ List.mem_cons_self))
    exact absurd hcall (Tree.Item.effect?_call_ne_none _)
  | member h hc ih => exact add (ih (List.forall_mem_append.mp hitems).1) hc (.inr (.inl rfl)) hnil
  | method h hc ih =>
    have hcall := hitems _ (List.mem_append_right _ (List.mem_cons_of_mem _ List.mem_cons_self))
    exact absurd hcall (Tree.Item.effect?_call_ne_none _)
  | index h hx hc ih =>
    rw [List.forall_mem_append, List.forall_mem_singleton, Tree.Item.effect?] at hitems
    exact add (ih hitems.1) hc (.inr (.inr rfl)) (List.forall_mem_singleton.mpr (hv hitems.2 hx))
  | call h hc ih =>
    have hcall := hitems _ (List.mem_append_right _ List.mem_cons_self)
    exact absurd hcall (Tree.Item.effect?_call_ne_none _)

theorem Spread.quiet (hv : v.Quiet) (hfits : v.Fits) {root : Tree.Root} {items : List Tree.Item} {links : List Expr}
    {s : Stage} {b : Bool} (h : Spread pl v root (m.last b) items links s) (hroot : root.effect? = none)
    (hitems : ∀ i ∈ items, i.effect? = none) : QuietBut m links := by
  obtain ⟨opens, laid, rfl⟩ := h
  have hread := opens.not_write hfits
  have hquiet := laid.quiet hv (opens.quiet hv hroot) hread hitems
  cases b with
  | true => exact hquiet
  | false => exact .all hquiet.quiet (Bool.eq_false_iff.mpr fun hend => by cases laid.write hread hend)

/-- What a chain without effect becomes is quiet but for the written value, wherever its walk ends. -/
theorem quiet_chainOf (hv : v.Quiet) (hfits : v.Fits) {c : Tree.Chain} (hc : (Tree.Expr.chain c).effect? = none)
    {r : Typed.Chain × Option Ty} {st' : State} (h : Yields clean (chainOf v m c) pl st r st') :
    QuietBut m r.1.links := by
  obtain ⟨hroot, hparts⟩ := c.parts_quiet hc
  obtain ⟨used, items, w, st₁, hreached, hends, -, -⟩ := reached_chainOf h
  have hbefore : ∀ {before left : List Tree.Item}, c.parts = before ++ left → ∀ i ∈ before, i.effect? = none :=
    fun hp i hi => hparts i (by rw [hp]; exact List.mem_append_left _ hi)
  rw [hends.links]
  cases hreached.along with
  | stuck hw hlinks =>
    rw [hlinks]
    exact .all (fun x hx => (List.not_mem_nil hx).elim) rfl
  | stopped hw hp h => exact Spread.quiet (b := false) hv hfits h hroot (hbefore hp)
  | on hp h hs => exact h.quiet hv hfits hroot (hbefore hp)

/-! ## Expressions -/

theorem quiet_exprStep (hv : v.Quiet) (hfits : v.Fits) {x : Tree.Expr} {expect : Option Ty} {r : Expr × Option Ty}
    (hx : x.effect? = none) (h : Gives clean pl (exprStep v x expect) r) : r.1.Quiet := by
  unfold exprStep at h
  cases x with
  | int | float | string | bool | null =>
    obtain rfl := h.eq_of_pure
    exact quiet_literal
  | paren span x =>
    rw [Tree.Expr.effect?] at hx
    exact hv hx h
  | lambda fn =>
    obtain ⟨span, coro, returns, params, body⟩ := fn
    rw [Tree.Expr.effect?] at hx
    cases hx
  | chain c =>
    obtain ⟨⟨c', t⟩, ⟨st, st', hchain⟩, h⟩ := h.bind
    obtain rfl := h.eq_of_pure
    exact quiet_chain.mpr (quiet_chainOf hv hfits hx hchain).quiet
  | unary span op x =>
    rw [Tree.Expr.effect?] at hx
    obtain ⟨y, t, t', hy, rfl⟩ := gives_unary h
    exact Typed.quiet_unary (hv hx hy)
  | binary span op x y =>
    rw [Tree.Expr.effect?, Option.or_eq_none_iff] at hx
    obtain ⟨a, ta, b, tb, t, ha, hb, rfl⟩ := gives_binary h
    exact Typed.quiet_binary (hv hx.1 ha) (hv hx.2 hb)
  | cast span type x | asType span x type | isType span x type =>
    rw [Tree.Expr.effect?] at hx
    obtain ⟨y, src, dst, hy, hnode, -⟩ := gives_cast h
    rw [hnode]
    exact Typed.quiet_cast (hv hx hy)
  | new span type inits =>
    rw [Tree.Expr.effect?] at hx
    cases hx
  | collection span xs =>
    rw [Tree.Expr.effect?, Tree.firstEffect?_eq_none] at hx
    obtain ⟨items, t, rfl, hitems⟩ := gives_collection h
    refine Typed.quiet_collection fun a ha => ?_
    cases hitems a ha with
    | element hmem h => exact Typed.quiet_element (hv (hx _ hmem) h)
    | entry hmem hk he =>
      have hpair := hx _ hmem
      rw [Tree.Expr.effect?, Tree.firstEffect?_eq_none] at hpair
      exact Typed.quiet_entry (hv (hpair _ (by simp)) hk) (hv (hpair _ (by simp)) he)

theorem quiet_visit (n : Nat) : (visit n).Quiet := by
  induction n with
  | zero =>
    intro clean pl x expect r hx h
    obtain rfl := h.eq_of_pure
    exact quiet_literal
  | succ n ih => exact fun hx h => quiet_exprStep ih (fits_visit n) hx h

/-! ## Updates -/

/-- The last access of a chain writes a value, which is the last of its children. Nothing else in the chain has an
effect. -/
structure WritesOnly (links init kids : List Expr) (c : Typed.Call) (value : Expr) : Prop where
  links : links = init ++ [Expr.call c]
  write : c.access.kind.isWrite = true
  children : c.children = kids ++ [value]
  init : ∀ x ∈ init, x.Quiet
  kids : ∀ x ∈ kids, x.Quiet

/-- A chain without effect that is accepted with a written value has the value once, unless it starts with a value of
unknown type. -/
theorem writesOnly_chainOf (hv : v.Quiet) (hfits : v.Fits) {c : Tree.Chain} (hc : (Tree.Expr.chain c).effect? = none)
    {value : Expr} {r : Typed.Chain × Option Ty} {st' : State}
    (h : Accepts (chainOf v (.write (some value)) c) pl st r st') :
    (∃ init kids c, WritesOnly r.1.links init kids c value) ∨
      Unknown True pl v st c.root ∧ (Expr.chain r.1).Quiet := by
  have hyields : Yields True (chainOf v (.write (some value)) c) pl st r st' := h.yields
  have hquiet := quiet_chainOf hv hfits hc hyields
  obtain ⟨used, items, w, st₁, -, hends, -, hclean⟩ := reached_chainOf hyields
  generalize hlinks : r.1.links = links at hquiet ⊢
  cases hquiet with
  | all hall hend =>
    refine .inr ⟨(hclean trivial).resolve_left ?_, quiet_chain.mpr (hlinks ▸ hall)⟩
    rintro ⟨t, -, hwrite⟩
    rw [← hends.links, hlinks, hend] at hwrite
    cases hwrite rfl
  | last hinit hcall hkids hwrite hchildren =>
    exact .inl ⟨_, _, _, rfl, hwrite, hchildren, hinit, hkids⟩

/-- An update of which nothing is reported. The target, which has no effect, is read; the value comes next; and the target
is written last, with the sum of the two as its value. -/
structure UpdateRun (v : Visit) (pl : Place) (span : Span) (op : BinaryOp) (target : Tree.Chain) (value : Tree.Expr)
    (st st' : State) where
  read : Typed.Chain
  readType : Option Ty
  readState : State
  added : Expr
  addedType : Option Ty
  addedState : State
  type : Option Ty
  written : Typed.Chain
  writtenType : Option Ty
  effect : (Tree.Expr.chain target).effect? = none
  reads : Accepts (chainOf v .read target) pl st (read, readType) readState
  adds : Accepts (v.expr value none) pl readState (added, addedType) addedState
  types : Accepts (updateType span op readType addedType) pl addedState type addedState
  writes : Accepts (chainOf v (.write (some (.binary span.start.line op type (.chain read) added))) target) pl addedState
    (written, writtenType) st'

/-- The value that is written. -/
def UpdateRun.sum {span : Span} {op : BinaryOp} {target : Tree.Chain} {value : Tree.Expr} {st' : State}
    (u : UpdateRun v pl span op target value st st') : Expr :=
  .binary span.start.line op u.type (.chain u.read) u.added

theorem accepts_updateStmt {span : Span} {op : BinaryOp} {target : Tree.Chain} {value : Tree.Expr} {st' : State}
    {out : List Typed.Stmt} (h : Accepts (updateStmt v span op target value) pl st out st') :
    ∃ u : UpdateRun v pl span op target value st st', out = [.expr (.chain u.written)] := by
  unfold updateStmt at h
  cases heffect : (Tree.Expr.chain target).effect? with
  | some at' =>
    rw [heffect] at h
    simp at h
  | none =>
    rw [heffect] at h
    obtain ⟨⟨read, l⟩, st₁, hread, h⟩ := accepts_bind.mp h
    obtain ⟨⟨x, t⟩, st₂, hx, h⟩ := accepts_bind.mp h
    obtain ⟨u, st₃, hu, h⟩ := accepts_bind.mp h
    obtain ⟨⟨written, wt⟩, st₄, hwritten, h⟩ := accepts_bind.mp h
    obtain ⟨rfl, rfl⟩ := accepts_pure.mp h
    obtain rfl := accepts_updateType hu
    exact ⟨⟨read, l, st₁, x, t, _, u, written, wt, heffect, hread, hx, hu, hwritten⟩, rfl⟩

theorem accepts_update {span : Span} {xs : List Tree.Expr} {op : BinaryOp} {value : Tree.Expr} {st' : State}
    {out : List Typed.Stmt} (h : Accepts (stmtStep v (.assign span xs (.update op) value)) pl st out st') :
    ∃ target, xs = [.chain target] ∧ Accepts (updateStmt v span op target value) pl st out st' := by
  change Accepts (assignStmt v span xs (.update op) value) pl st out st' at h
  unfold assignStmt at h
  split at h
  · exact ⟨_, rfl, h⟩
  · simp at h
  · unfold multiStmt at h
    dsimp only at h
    simp at h

/-- An update is accepted only if its target is a chain without effect. The target is analyzed to be read, then the value
is analyzed, and then the target is analyzed to be written. The copy that is read has no effect. The copy that is written
has none apart from the sum of the first copy and the value, which it has once, unless the target starts with a value of
unknown type. -/
theorem update_quiet {n : Nat} {span : Span} {xs : List Tree.Expr} {op : BinaryOp} {value : Tree.Expr} {st' : State}
    {out : List Typed.Stmt} (h : Accepts (stmtStep (visit n) (.assign span xs (.update op) value)) pl st out st') :
    ∃ target, xs = [.chain target] ∧ ∃ u : UpdateRun (visit n) pl span op target value st st',
      out = [.expr (.chain u.written)] ∧ (Expr.chain u.read).Quiet ∧
      ((∃ init kids c, WritesOnly u.written.links init kids c u.sum) ∨
        Unknown True pl (visit n) u.addedState target.root ∧ (Expr.chain u.written).Quiet) := by
  obtain ⟨target, rfl, h⟩ := accepts_update h
  obtain ⟨u, hout⟩ := accepts_updateStmt h
  have hv : (visit n).Quiet := quiet_visit n
  have hfits : (visit n).Fits := fits_visit n
  have hread : Yields True (chainOf (visit n) .read target) pl st (u.read, u.readType) u.readState := u.reads.yields
  have hquiet := quiet_chain.mpr (quiet_chainOf hv hfits u.effect hread).quiet
  exact ⟨target, rfl, u, hout, hquiet, writesOnly_chainOf hv hfits u.effect u.writes⟩

namespace IndexedUpdate

/-- A place in the first line. -/
private def span (start stop : Nat) : Span := ⟨⟨start, 1, start + 1⟩, ⟨stop, 1, stop + 1⟩⟩

/-- A variable that holds an array of numbers. -/
def a : LocalVar := { name := "a", type := some (.array .int), slot := 0, ref := false }

/-- A file with an empty root namespace. -/
def place : Place := { file := "m.weft", scope := .file ⟨0⟩ }

/-- A body with the variable. -/
def start : State := { store := .empty, bodies := [(Body.empty default).add a] }

/-- The first element of a collection of two numbers. -/
def first : Tree.Chain :=
  ⟨span 2 13, .paren (span 2 10) (.collection (span 3 9) [.int (span 4 5) 0, .int (span 7 8) 1]),
    [.index (span 10 13) (.int (span 11 12) 0)]⟩

/-- The element of the variable at that index. -/
def target : Tree.Chain := ⟨span 0 14, .name (span 0 1) "a", [.index (span 1 14) (.chain first)]⟩

/-- The whole statement. -/
def whole : Span := span 0 20

/-- The number that is added. -/
def one : Tree.Expr := .int (span 18 19) 1

/-- Add one to the element. -/
def statement : Tree.Stmt := .assign whole [.chain target] (.update .add) one

/-- A number. -/
def number (n : Int) : Expr := .literal 1 (.int n) .int

/-- The index. -/
def index : Expr :=
  .chain ⟨1, some .int, false,
    [.collection 1 (.array .int) [.element 1 (number 0), .element 1 (number 1)],
      access 1 .arrayGet "" (some .int) [number 0]]⟩

/-- The element as it is read. -/
def read : Expr :=
  .chain ⟨1, some .int, false, [access 1 (.readVar a) "a" a.type [], access 1 .arrayGet "" (some .int) [index]]⟩

/-- The statement with both copies of the target. -/
def written : Typed.Stmt :=
  .expr (.chain ⟨1, some .int, false, [access 1 (.readVar a) "a" a.type [],
    access 1 .arraySet "" (some .int) [index, .binary 1 .add (some .int) read (number 1)]]⟩)

theorem accepts_statement : Accepts (stmtStep (visit 3) statement) place start [written] start := by
  unfold Accepts
  cbv

end IndexedUpdate

theorem update_quiet_indexed :
    ∃ out st', Accepts (stmtStep (visit 3) IndexedUpdate.statement) IndexedUpdate.place IndexedUpdate.start out st' ∧
      ∃ u : UpdateRun (visit 3) IndexedUpdate.place IndexedUpdate.whole .add IndexedUpdate.target IndexedUpdate.one
        IndexedUpdate.start st', out = [.expr (.chain u.written)] ∧ (Expr.chain u.read).Quiet ∧
          ∃ init kids c, WritesOnly u.written.links init kids c u.sum := by
  obtain ⟨target, htarget, u, hout, hquiet, hwrites⟩ := update_quiet IndexedUpdate.accepts_statement
  obtain rfl : IndexedUpdate.target = target := by simpa using htarget
  refine ⟨_, _, IndexedUpdate.accepts_statement, u, hout, hquiet, hwrites.resolve_right ?_⟩
  rintro ⟨⟨span, x, y, st', hroot, -⟩, -⟩
  cases hroot

/-- Whether a node is a collection. -/
def isCollection (n : Typed.Node) : Bool :=
  match n.label with
  | .collection _ => true
  | _ => false

/-- A collection of numbers in the target of an update is made for each of the two copies. -/
theorem update_makes_collections :
    ∃ out st', Accepts (stmtStep (visit 3) IndexedUpdate.statement) IndexedUpdate.place IndexedUpdate.start out st' ∧
      (Typed.forestPreorder (Typed.stmtNodes out)).countP isCollection = 2 := by
  refine ⟨_, _, IndexedUpdate.accepts_statement, ?_⟩
  rfl

end Analysis

end Weft
