import Weft.Proofs.Analysis.ChainSteps

/-!
# What an expression becomes

The analysis of an expression makes a node of its kind over the results for the expressions inside it. The type that
comes with the node is the type of the node, unless it is not known.
-/

namespace Weft.Analysis

open Typed (Expr Append)

variable {clean : Prop} {pl : Place} {v : Visit} {span : Span} {r : Expr × Option Ty}

/-- The type that comes with a value is that of its node, which is no access by itself. -/
structure Fits (r : Expr × Option Ty) : Prop where
  type : ∀ t, r.2 = some t → r.1.type = some t
  node : ∀ c, r.1 ≠ .call c

/-- The results of a visit fit. -/
def Visit.Fits (v : Visit) : Prop :=
  ∀ {clean : Prop} {pl x expect r}, Gives clean pl (v.expr x expect) r → Analysis.Fits r

/-! ## Lambdas -/

theorem fits_lambda {fn : Tree.Lambda} (h : Gives clean pl (lambda v fn) r) : Fits r ∧ ∃ t, r.2 = some t := by
  obtain ⟨sig, h⟩ := h.after
  obtain ⟨⟨⟨params, ss⟩, b⟩, h⟩ := h.after
  obtain ⟨-, h⟩ := h.after
  obtain rfl := h.eq_of_pure
  exact ⟨⟨fun t ht => ht, fun c hc => by cases hc⟩, _, rfl⟩

/-! ## Operators and casts -/

theorem gives_unary {op : UnaryOp} {x : Tree.Expr} (h : Gives clean pl (unary v span op x) r) :
    ∃ y t t', Gives clean pl (v.expr x none) (y, t) ∧ r = (.unary span.start.line op t' y, t') := by
  obtain ⟨⟨y, t⟩, hy, h⟩ := h.bind
  refine ⟨y, t, ?_⟩
  dsimp only at h
  split at h
  · obtain rfl := h.eq_of_pure
    exact ⟨none, hy, rfl⟩
  · obtain ⟨s, h⟩ := h.after
    split at h
    · obtain rfl := h.eq_of_pure
      exact ⟨_, hy, rfl⟩
    · obtain ⟨-, h⟩ := h.after
      obtain rfl := h.eq_of_pure
      exact ⟨none, hy, rfl⟩

theorem fits_unary {op : UnaryOp} {x : Tree.Expr} (h : Gives clean pl (unary v span op x) r) : Fits r := by
  obtain ⟨y, t, t', -, rfl⟩ := gives_unary h
  exact ⟨fun _ ht => ht, fun c hc => by cases hc⟩

theorem gives_binary {op : BinaryOp} {x y : Tree.Expr} (h : Gives clean pl (binary v span op x y) r) :
    ∃ a ta b tb t, Gives clean pl (v.expr x none) (a, ta) ∧ Gives clean pl (v.expr y none) (b, tb) ∧
      r = (.binary span.start.line op t a b, t) := by
  obtain ⟨⟨a, ta⟩, ha, h⟩ := h.bind
  obtain ⟨⟨b, tb⟩, hb, h⟩ := h.bind
  refine ⟨a, ta, b, tb, ?_⟩
  dsimp only at h
  split at h
  · obtain ⟨s, h⟩ := h.after
    split at h
    · obtain rfl := h.eq_of_pure
      exact ⟨_, ha, hb, rfl⟩
    · obtain ⟨-, h⟩ := h.after
      obtain rfl := h.eq_of_pure
      exact ⟨none, ha, hb, rfl⟩
  · obtain rfl := h.eq_of_pure
    exact ⟨none, ha, hb, rfl⟩

theorem fits_binary {op : BinaryOp} {x y : Tree.Expr} (h : Gives clean pl (binary v span op x y) r) : Fits r := by
  obtain ⟨a, ta, b, tb, t, -, -, rfl⟩ := gives_binary h
  exact ⟨fun _ ht => ht, fun c hc => by cases hc⟩

theorem gives_cast {kind : Typed.CastKind} {x : Tree.Expr} {type : Tree.TypeExpr}
    (h : Gives clean pl (cast v span kind x type) r) :
    ∃ y src dst, Gives clean pl (v.expr x none) (y, src) ∧ r.1 = .cast span.start.line kind dst y ∧ Fits r := by
  obtain ⟨⟨y, src⟩, hy, h⟩ := h.bind
  obtain ⟨dst, h⟩ := h.after
  refine ⟨y, src, dst, hy, ?_⟩
  have hnode : ∀ {t}, (∀ t', t = some t' → (Expr.cast span.start.line kind dst y).type = some t') →
      r = (.cast span.start.line kind dst y, t) → r.1 = .cast span.start.line kind dst y ∧ Fits r := by
    rintro t ht rfl
    exact ⟨rfl, ht, fun c hc => by cases hc⟩
  cases src with
  | none => exact hnode (fun t ht => by cases ht) h.eq_of_pure
  | some src =>
    cases dst with
    | none => exact hnode (fun t ht => by cases ht) h.eq_of_pure
    | some dst =>
      obtain ⟨s, h⟩ := h.after
      -- what may be reported in front of the rest gives nothing
      have hreported : ∀ {p : Prop} [Decidable p] {first : Analysis Unit} {rest : Analysis (Expr × Option Ty)},
          Gives clean pl (if p then first >>= fun _ => rest else rest) r → Gives clean pl rest r := by
        intro p hp first rest h
        split at h
        · obtain ⟨-, h⟩ := h.after
          exact h
        · exact h
      have hkind := hreported h
      cases kind with
      | isType => exact hnode (fun t ht => ht) hkind.eq_of_pure
      | asType => exact hnode (fun t ht => ht) (hreported hkind).eq_of_pure
      | explicit => exact hnode (fun t ht => ht) hkind.eq_of_pure

theorem fits_cast {kind : Typed.CastKind} {x : Tree.Expr} {type : Tree.TypeExpr}
    (h : Gives clean pl (cast v span kind x type) r) : Fits r := by
  obtain ⟨y, src, dst, -, -, hfits⟩ := gives_cast h
  exact hfits

/-! ## Construction -/

theorem fits_new {type : Tree.TypeExpr} {inits : List Tree.FieldInit} (h : Gives clean pl (new v span type inits) r) :
    Fits r := by
  obtain ⟨t, h⟩ := h.after
  have hnode : ∀ {t'} calls, (t' = t ∨ t' = none) → Fits (Expr.new span.start.line t calls, t') := by
    rintro t' calls (rfl | rfl)
    · exact ⟨fun _ ht => ht, fun c hc => by cases hc⟩
    · exact ⟨fun _ ht => (Option.some_ne_none _ ht.symm).elim, fun c hc => by cases hc⟩
  dsimp only at h
  split at h
  · obtain rfl := h.eq_of_pure
    exact hnode [] (.inl rfl)
  · obtain ⟨calls, h⟩ := h.after
    obtain rfl := h.eq_of_pure
    exact hnode calls (.inl rfl)
  · split at h
    · obtain ⟨-, h⟩ := h.after
      obtain rfl := h.eq_of_pure
      exact hnode [] (.inl rfl)
    · obtain rfl := h.eq_of_pure
      exact hnode [] (.inl rfl)
  · split at h
    · obtain ⟨-, h⟩ := h.after
      obtain rfl := h.eq_of_pure
      exact hnode [] (.inl rfl)
    · obtain rfl := h.eq_of_pure
      exact hnode [] (.inl rfl)
  · obtain ⟨name, h⟩ := h.after
    obtain ⟨-, h⟩ := h.after
    obtain rfl := h.eq_of_pure
    exact hnode [] (.inr rfl)

/-! ## Collections -/

theorem gives_mapM {ι β : Type} {f : ι → Analysis β} {xs : List ι} {ys : List β} (h : Gives clean pl (xs.mapM f) ys) :
    ∀ y ∈ ys, ∃ x ∈ xs, Gives clean pl (f x) y := by
  induction xs generalizing ys with
  | nil =>
    rw [List.mapM_nil] at h
    obtain rfl := h.eq_of_pure
    exact fun y hy => (List.not_mem_nil hy).elim
  | cons x xs ih =>
    rw [List.mapM_cons] at h
    obtain ⟨z, hz, h⟩ := h.bind
    obtain ⟨zs, hzs, h⟩ := h.bind
    obtain rfl := h.eq_of_pure
    intro y hy
    rcases List.mem_cons.mp hy with rfl | hy
    · exact ⟨x, List.mem_cons_self, hz⟩
    · obtain ⟨x', hx', hy⟩ := ih hzs y hy
      exact ⟨x', List.mem_cons_of_mem x hx', hy⟩

/-- What an element or entry of a collection becomes. An entry is written as a collection of its key and its value. -/
inductive Appends (clean : Prop) (pl : Place) (v : Visit) (xs : List Tree.Expr) : Append → Prop where
  | element {x : Tree.Expr} {expect t : Option Ty} {line : Nat} {y : Expr} (hx : x ∈ xs)
    (h : Gives clean pl (v.expr x expect) (y, t)) : Appends clean pl v xs (.element line y)
  | entry {span : Span} {kx vx : Tree.Expr} {ek ev kt vt : Option Ty} {line : Nat} {k e : Expr}
    (hx : .collection span [kx, vx] ∈ xs) (hk : Gives clean pl (v.expr kx ek) (k, kt))
    (he : Gives clean pl (v.expr vx ev) (e, vt)) : Appends clean pl v xs (.entry line k e)

theorem Appends.cons {x : Tree.Expr} {xs : List Tree.Expr} {a : Append} (h : Appends clean pl v xs a) :
    Appends clean pl v (x :: xs) a := by
  cases h with
  | element hx h => exact .element (List.mem_cons_of_mem x hx) h
  | entry hx hk he => exact .entry (List.mem_cons_of_mem x hx) hk he

theorem gives_arrayElements {elem : Ty} {xs : List Tree.Expr} {items : List Append}
    (h : Gives clean pl (arrayElements v elem xs) items) : ∀ a ∈ items, Appends clean pl v xs a := by
  intro a ha
  obtain ⟨x, hx, h⟩ := gives_mapM h a ha
  obtain ⟨⟨y, t⟩, hy, h⟩ := h.bind
  obtain ⟨-, h⟩ := h.after
  obtain rfl := h.eq_of_pure
  exact .element hx hy

theorem gives_mapEntries {key value : Ty} {xs : List Tree.Expr} {items : List Append}
    (h : Gives clean pl (mapEntries v key value xs) items) : ∀ a ∈ items, Appends clean pl v xs a := by
  induction xs generalizing items with
  | nil =>
    obtain rfl := h.eq_of_pure
    exact fun a ha => (List.not_mem_nil ha).elim
  | cons x xs ih =>
    unfold mapEntries at h
    split at h
    · obtain ⟨⟨k, kt⟩, hk, h⟩ := h.bind
      obtain ⟨-, h⟩ := h.after
      obtain ⟨⟨e, vt⟩, he, h⟩ := h.bind
      obtain ⟨-, h⟩ := h.after
      obtain ⟨more, hmore, h⟩ := h.bind
      obtain rfl := h.eq_of_pure
      intro a ha
      rcases List.mem_cons.mp ha with rfl | ha
      · exact .entry List.mem_cons_self hk he
      · exact (ih hmore a ha).cons
    · obtain ⟨-, h⟩ := h.after
      exact fun a ha => (ih h a ha).cons

theorem gives_inferredElements {xs : List Tree.Expr} {items : List Append} {elem : Ty}
    (h : Gives clean pl (inferredElements v xs) (items, elem)) : ∀ a ∈ items, Appends clean pl v xs a := by
  cases xs with
  | nil =>
    cases h.eq_of_pure
    exact fun a ha => (List.not_mem_nil ha).elim
  | cons x xs =>
    obtain ⟨⟨y, t⟩, hy, h⟩ := h.bind
    obtain ⟨more, hmore, h⟩ := h.bind
    cases h.eq_of_pure
    intro a ha
    rcases List.mem_cons.mp ha with rfl | ha
    · exact .element List.mem_cons_self hy
    · obtain ⟨x', hx', h⟩ := gives_mapM hmore a ha
      obtain ⟨⟨y', t'⟩, hy', h⟩ := h.bind
      refine .cons ?_
      dsimp only at h
      split at h
      · obtain ⟨-, h⟩ := h.after
        obtain rfl := h.eq_of_pure
        exact .element hx' hy'
      · obtain rfl := h.eq_of_pure
        exact .element hx' hy'

theorem gives_collection {xs : List Tree.Expr} {expect : Option Ty} (h : Gives clean pl (collection v span xs expect) r) :
    ∃ items t, r = (.collection span.start.line t items, some t) ∧ ∀ a ∈ items, Appends clean pl v xs a := by
  unfold collection at h
  dsimp only at h
  split at h
  · obtain ⟨items, hitems, h⟩ := h.bind
    obtain rfl := h.eq_of_pure
    exact ⟨_, _, rfl, gives_arrayElements hitems⟩
  · obtain ⟨items, hitems, h⟩ := h.bind
    obtain rfl := h.eq_of_pure
    exact ⟨_, _, rfl, gives_mapEntries hitems⟩
  · obtain ⟨⟨items, elem⟩, hitems, h⟩ := h.bind
    obtain rfl := h.eq_of_pure
    exact ⟨_, _, rfl, gives_inferredElements hitems⟩

theorem fits_collection {xs : List Tree.Expr} {expect : Option Ty} (h : Gives clean pl (collection v span xs expect) r) :
    Fits r := by
  obtain ⟨items, t, rfl, -⟩ := gives_collection h
  exact ⟨fun t' ht => ht, fun c hc => by cases hc⟩

end Weft.Analysis
