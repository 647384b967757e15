import Weft.Proofs.Analysis.ExprSteps

/-!
# The walk along a chain

A chain is resolved from its root along its items. Wherever the walk stands at a value, the accesses made so far leave
just that value; where it stands at a namespace or a type, there are none. A chain that is resolved has one access for each
item after the names of namespaces and types, with one access for the name of a function and the call behind it; all its
accesses but the last read or call, and the last one writes if the chain is to be written.
-/

namespace Weft.Analysis

open Typed (Expr AccessSort)

variable {clean : Prop} {pl : Place} {v : Visit} {m : Mode} {w : Walk} {st : State}

/-! ## Ends -/

/-- A walk has come to the end of its chain at a value, and at a write if the chain is to be written. -/
def Walk.Done (m : Mode) (w : Walk) (t : Option Ty) : Prop :=
  (∃ viaBase, w.stand = .value t viaBase) ∧ (m.isWrite = true → endsInWrite w.links = true)

/-- The chain that a walk makes has its accesses. Its type is that of the value where the walk ends, and is not known if
there is none. If no problem is reported at the end, there is none only where the walk has stopped before. -/
structure Ends (clean : Prop) (m : Mode) (w : Walk) (r : Typed.Chain × Option Ty) : Prop where
  links : r.1.links = w.links
  type : r.1.type = r.2
  done : ∀ t, w.Done m t → r.2 = t
  known : ∀ t, r.2 = some t → w.Done m (some t)
  stops : clean → w.isFailed = false → ∃ t, w.Done m t

theorem yields_chain {lam : Tree.Lambda → Analysis (Expr × Option Ty)} {c : Tree.Chain} {st' : State}
    {r : Typed.Chain × Option Ty} (h : Yields clean (chain v lam m c) pl st r st') :
    ∃ w₀ used st₁ w st₂, Yields clean (rootStep v lam m c) pl st (w₀, used) st₁ ∧
      Yields clean (followItems v m used c.items w₀) pl st₁ w st₂ ∧ Ends clean m w r := by
  obtain ⟨⟨w₀, used⟩, st₁, hroot, h⟩ := yields_bind.mp h
  obtain ⟨w, st₂, hitems, h⟩ := yields_bind.mp h
  refine ⟨w₀, used, st₁, w, st₂, hroot, hitems, ?_⟩
  have hnone : ∀ {r' : Typed.Chain × Option Ty},
      Gives clean pl (pure (⟨c.span.start.line, none, false, w.links⟩, none)) r' → (∀ t, ¬w.Done m t) →
      (clean → w.isFailed = true) → Ends clean m w r' := by
    intro r' h hdone hfailed
    obtain rfl := h.eq_of_pure
    refine ⟨rfl, rfl, fun t ht => (hdone t ht).elim, fun t ht => (Option.some_ne_none t ht.symm).elim, fun hc hw => ?_⟩
    rw [hfailed hc] at hw
    cases hw
  have h := h.gives
  dsimp only at h
  split at h
  · next hstand => exact hnone h (fun t ht => by simp [Walk.Done, hstand] at ht) fun _ => isFailed_iff.mpr hstand
  · next f hstand =>
    obtain ⟨s, h⟩ := h.after
    obtain ⟨u, hreport, h⟩ := h.bind
    exact hnone h (fun t ht => by simp [Walk.Done, hstand] at ht) fun hc => absurd hc (gives_report hreport)
  · next t viaBase hstand =>
    split at h
    · next hbad =>
      obtain ⟨u, hreport, h⟩ := h.bind
      refine hnone h (fun t ht => ?_) fun hc => absurd hc (gives_report hreport)
      simp only [Bool.and_eq_true, Bool.not_eq_true'] at hbad
      exact absurd (ht.2 hbad.1) (by simp [hbad.2])
    · next hgood =>
      obtain rfl := h.eq_of_pure
      have hwrite : m.isWrite = true → endsInWrite w.links = true := fun hm => by simpa [hm] using hgood
      refine ⟨rfl, rfl, fun t' ht' => ?_, fun t' ht' => ⟨⟨viaBase, by rw [hstand, ← ht']⟩, hwrite⟩,
        fun _ _ => ⟨t, ⟨viaBase, hstand⟩, hwrite⟩⟩
      obtain ⟨⟨b, hb⟩, -⟩ := ht'
      rw [hstand] at hb
      cases hb
      rfl

theorem fits_exprStep (hv : v.Fits) {x : Tree.Expr} {expect : Option Ty} {r : Expr × Option Ty}
    (h : Gives clean pl (exprStep v x expect) r) : Fits r := by
  have hliteral : ∀ {span : Span} {value : Typed.Literal} {t : Ty},
      Gives clean pl (pure (Expr.literal span.start.line value t, some t)) r → Fits r := by
    intro span value t h
    obtain rfl := h.eq_of_pure
    exact ⟨fun _ ht => ht, fun c hc => by cases hc⟩
  unfold exprStep at h
  cases x with
  | int | float | string | bool | null => exact hliteral h
  | paren span x => exact hv h
  | lambda fn => exact (fits_lambda h).1
  | chain c =>
    obtain ⟨⟨c', t⟩, hchain, h⟩ := h.bind
    obtain rfl := h.eq_of_pure
    obtain ⟨st₀, st₁, hchain⟩ := hchain
    obtain ⟨_, _, _, _, _, _, _, hends⟩ := yields_chain hchain
    exact ⟨fun t' ht => hends.type.trans ht, fun c hc => by cases hc⟩
  | unary span op x => exact fits_unary h
  | binary span op x y => exact fits_binary h
  | cast span type x => exact fits_cast h
  | asType span x type => exact fits_cast h
  | isType span x type => exact fits_cast h
  | new span type inits => exact fits_new h
  | collection span xs => exact fits_collection h

theorem fits_visit (n : Nat) : (visit n).Fits := by
  induction n with
  | zero =>
    intro clean pl x expect r h
    obtain rfl := h.eq_of_pure
    exact ⟨fun _ ht => (Option.some_ne_none _ ht.symm).elim, fun c hc => by cases hc⟩
  | succ n ih => exact fun h => fits_exprStep ih h

/-! ## Values -/

/-- The values that are left where one of a type is expected: those of a tuple, none of no type, and one otherwise. -/
def valuesOf : Option Ty → List (Option Ty)
  | some (.tuple items) => items.map some
  | some (.builtin .void) => []
  | t => [t]

/-- The values that an access or another expression of a chain leaves. A write leaves none. -/
def leaves : Expr → List (Option Ty)
  | .call c => if c.access.kind.isWrite then [] else valuesOf c.type
  | x => valuesOf x.type

/-- Whether an expression of a chain takes the last value before it. -/
def takes : Expr → Bool
  | .call c => c.access.sort.onValue
  | _ => false

/-- The values after one more expression of a chain, if it finds the value that it takes. -/
def valuesAfter (x : Expr) (stack : List (Option Ty)) : Option (List (Option Ty)) :=
  if takes x then
    if stack = [] then none else some (stack.dropLast ++ leaves x)
  else some (stack ++ leaves x)

/-- The values that the expressions of a chain leave from left to right. -/
def evaluate (links : List Expr) : Option (List (Option Ty)) :=
  links.foldlM (fun stack x => valuesAfter x stack) []

theorem evaluate_append (links : List Expr) (x : Expr) :
    evaluate (links ++ [x]) = (evaluate links).bind (valuesAfter x) := by
  simp [evaluate, List.foldlM_append]

/-- A walk at a value has made accesses that leave just that value; a walk at a namespace or type has made none. -/
def Walk.Sound (w : Walk) : Prop :=
  match w.stand with
  | .value t _ => evaluate w.links = some (valuesOf t)
  | .static _ => w.links = []
  | .failed => True

/-- A walk is sound, or it has just made a write. -/
def Walk.Moved (m : Mode) (w : Walk) : Prop := w.Sound ∨ m.isWrite = true ∧ endsInWrite w.links = true

theorem Walk.Moved.sound (h : w.Moved .read) : w.Sound := h.resolve_right fun hm => by cases hm.1

theorem Walk.sound_fail (w : Walk) : w.fail.Sound := True.intro

theorem HasMembers.valuesOf {t : Option Ty} (h : HasMembers t) : valuesOf t = [t] := by
  unfold HasMembers at h
  split at h <;> first | rfl | exact h.elim

theorem endsInWrite_append (links : List Expr) (c : Typed.Call) :
    endsInWrite (links ++ [Expr.call c]) = c.access.kind.isWrite := by
  simp [endsInWrite]

/-- An access at a name leaves its value behind nothing. -/
theorem moved_first {c : Typed.Call} (hw : w.links = []) (hc : c.access.sort.onValue = false)
    (hwrite : c.access.kind.isWrite = true → m.isWrite = true) : (w.access c).Moved m := by
  cases hk : c.access.kind.isWrite with
  | true => exact .inr ⟨hwrite hk, by rw [Walk.access, Walk.push, endsInWrite_append, hk]⟩
  | false =>
    refine .inl ?_
    show evaluate (w.links ++ [Expr.call c]) = some (valuesOf c.type)
    rw [hw, evaluate_append]
    simp [evaluate, valuesAfter, takes, hc, leaves, hk]

/-- An access to a value leaves its value in the place of that one. -/
theorem moved_value {c : Typed.Call} {t : Option Ty} (hw : evaluate w.links = some [t]) (hc : c.access.sort.onValue = true)
    (hwrite : c.access.kind.isWrite = true → m.isWrite = true) : (w.access c).Moved m := by
  cases hk : c.access.kind.isWrite with
  | true => exact .inr ⟨hwrite hk, by rw [Walk.access, Walk.push, endsInWrite_append, hk]⟩
  | false =>
    refine .inl ?_
    show evaluate (w.links ++ [Expr.call c]) = some (valuesOf c.type)
    rw [evaluate_append, hw]
    simp [valuesAfter, takes, hc, leaves, hk]

theorem Accesses.moves {sort : AccessSort} {kids : List Expr} {c : Typed.Call} (h : Accesses m sort kids c) :
    c.access.kind.isWrite = true → m.isWrite = true := fun hw => h.isWrite.symm.trans hw

theorem moves_of_sort {c : Typed.Call} (h : c.access.sort.mayWrite = false) :
    c.access.kind.isWrite = true → m.isWrite = true := fun hk => by
  rw [Typed.Access.isWrite_eq_false h] at hk
  cases hk

section Moved

variable {next : Option Tree.Call} {r : Walk × Bool} {t : Option Ty}

theorem NameMoves.moved (h : NameMoves clean m next w r) (hw : w.links = []) : r.1.Moved m := by
  cases h with
  | stops _ => exact .inl w.sound_fail
  | enters f => exact .inl hw
  | reads h => exact moved_first hw (by rw [h.sort]; rfl) h.moves
  | refers hnext h htype hkids => exact moved_first hw (by rw [h]; rfl) (moves_of_sort (by rw [h]; rfl))
  | calls hnext h => exact moved_first hw (by rw [h]; rfl) (moves_of_sort (by rw [h]; rfl))

theorem StaticMoves.moved (h : StaticMoves clean m next w r) (hw : w.links = []) : r.1.Moved m := by
  cases h with
  | name h => exact h.moved hw
  | item line n e =>
    refine .inl ?_
    show evaluate (w.links ++ [_]) = _
    rw [hw]
    rfl

theorem MemberMoves.moved (h : MemberMoves clean m next w t r) (hw : evaluate w.links = some (valuesOf t)) : r.1.Moved m := by
  cases h with
  | stops _ => exact .inl w.sound_fail
  | reads ht h => exact moved_value (ht.valuesOf ▸ hw) (by rw [h.sort]; rfl) h.moves
  | calls ht hnext h =>
    exact moved_value (ht.valuesOf ▸ hw) (by rw [h]; rfl) (moves_of_sort (by rw [h]; rfl))

theorem StepMoves.moved (h : StepMoves clean m next w r) (hw : w.Sound) : r.1.Moved m := by
  unfold Walk.Sound at hw
  cases h with
  | static f hstand h =>
    rw [hstand] at hw
    exact h.moved hw
  | value t viaBase hstand h =>
    rw [hstand] at hw
    exact h.moved hw
  | failed hstand h =>
    rw [h]
    refine .inl ?_
    rw [Walk.Sound, hstand]
    exact True.intro

theorem IndexMoves.moved {x : Tree.Expr} {w' : Walk} (h : IndexMoves clean pl v m x w w') (hw : w.Sound) : w'.Moved m := by
  cases h with
  | stops _ => exact .inl w.sound_fail
  | reads hstand ht hx h =>
    rw [Walk.Sound, hstand] at hw
    exact moved_value (hw.trans (congrArg some ht.valuesOf)) (by rw [h.sort]; rfl) h.moves

theorem CallMoves.sound {w' : Walk} (h : CallMoves clean w w') (hw : w.Sound) : w'.Sound := by
  cases h with
  | stops _ => exact w.sound_fail
  | calls hstand h =>
    rw [Walk.Sound, hstand] at hw
    exact (moved_value hw (by rw [h]; rfl) (moves_of_sort (by rw [h]; rfl))).sound

theorem ThisMoves.sound {w' : Walk} (h : ThisMoves clean w w') (hw : w.links = []) : w'.Sound := by
  cases h with
  | stops _ => exact w.sound_fail
  | reads htype h => exact (moved_first hw (by rw [h.sort]; rfl) h.moves).sound

theorem RootNameMoves.moved (h : RootNameMoves clean m next w r) (hw : w.links = []) : r.1.Moved m := by
  cases h with
  | name h => exact h.moved hw
  | implicit htype hc h =>
    have hthis : ThisMoves clean w _ := .reads htype hc
    exact h.moved (hthis.sound hw)

theorem BaseMoves.sound {w' : Walk} (h : BaseMoves clean w w') (hw : w.links = []) : w'.Sound := by
  cases h with
  | stops _ => exact w.sound_fail
  | casts hc =>
    show evaluate (w.links ++ [_]) = _
    rw [hw]
    rfl

end Moved

/-! ## Roots -/

/-- A walk that has not started. -/
def Walk.start : Walk := { links := [], stand := .failed }

/-- What a chain does with its root. -/
inductive RootMoves (clean : Prop) (pl : Place) (v : Visit) (m : Mode) :
    Tree.Root → List Tree.Item → Walk × Bool → Prop where
  | name {span : Span} {name : String} {items : List Tree.Item} {r : Walk × Bool}
    (h : RootNameMoves clean (m.last items.isEmpty) (firstCall? items) .start r) :
    RootMoves clean pl v m (.name span name) items r
  | this {span : Span} {items : List Tree.Item} {w : Walk} (h : ThisMoves clean .start w) :
    RootMoves clean pl v m (.this span) items (w, false)
  | base {span : Span} {items : List Tree.Item} {w : Walk} (h : BaseMoves clean .start w) :
    RootMoves clean pl v m (.base span) items (w, false)
  | paren {span : Span} {x : Tree.Expr} {items : List Tree.Item} {y : Expr} {t : Ty}
    (h : Gives clean pl (v.expr x none) (y, some t)) :
    RootMoves clean pl v m (.paren span x) items (Walk.start.push y (some t), false)
  | stuck {span : Span} {x : Tree.Expr} {items : List Tree.Item} {y : Expr}
    (h : Gives clean pl (v.expr x none) (y, none)) :
    RootMoves clean pl v m (.paren span x) items ((Walk.start.push y none).fail, false)
  | lambda {fn : Tree.Lambda} {items : List Tree.Item} {y : Expr} {t : Ty} (h : Gives clean pl (lambda v fn) (y, some t)) :
    RootMoves clean pl v m (.lambda fn) items (Walk.start.push y (some t), false)

theorem gives_rootStep {c : Tree.Chain} {r : Walk × Bool} (h : Gives clean pl (rootStep v (lambda v) m c) r) :
    RootMoves clean pl v m c.root c.items r := by
  obtain ⟨span, root, items⟩ := c
  unfold rootStep at h
  cases root with
  | name span name => exact .name (gives_nameStep h)
  | this span =>
    obtain ⟨w, hthis, h⟩ := h.bind
    obtain rfl := h.eq_of_pure
    exact .this (gives_pushThis hthis)
  | base span =>
    obtain ⟨w, hbase, h⟩ := h.bind
    obtain rfl := h.eq_of_pure
    exact .base (gives_baseStep hbase)
  | paren span x =>
    obtain ⟨⟨y, t⟩, hx, h⟩ := h.bind
    obtain rfl := h.eq_of_pure
    cases t with
    | none => exact .stuck hx
    | some t => exact .paren hx
  | lambda fn =>
    obtain ⟨⟨y, t⟩, hx, h⟩ := h.bind
    obtain rfl := h.eq_of_pure
    obtain ⟨-, t, rfl⟩ := fits_lambda hx
    exact .lambda hx

theorem sound_root {y : Expr} {t : Ty} (h : Fits (y, some t)) : (Walk.start.push y (some t)).Sound := by
  show evaluate ([] ++ [y]) = _
  rw [evaluate_append]
  have htype := h.type t rfl
  cases y with
  | call c => exact absurd rfl (h.node c)
  | _ => simp [evaluate, valuesAfter, takes, leaves, htype]

theorem RootMoves.moved (hv : v.Fits) {root : Tree.Root} {items : List Tree.Item} {r : Walk × Bool}
    (h : RootMoves clean pl v m root items r) : r.1.Moved (m.last items.isEmpty) := by
  cases h with
  | name h => exact h.moved rfl
  | this h => exact .inl (h.sound rfl)
  | base h => exact .inl (h.sound rfl)
  | paren h => exact .inl (sound_root (hv h))
  | stuck h => exact .inl True.intro
  | lambda h => exact .inl (sound_root (fits_lambda h).1)

/-! ## Steps one after the other -/

/-- What is reached when a chain is resolved from a state: whether the first of the items left is used already, these
items, the walk and the state. -/
inductive Reached (clean : Prop) (v : Visit) (m : Mode) (pl : Place) (c : Tree.Chain) (st : State) :
    Bool → List Tree.Item → Walk → State → Prop where
  | root {used : Bool} {w : Walk} {st' : State} (h : Yields clean (rootStep v (lambda v) m c) pl st (w, used) st') :
    Reached clean v m pl c st used c.items w st'
  | skip {item : Tree.Item} {items : List Tree.Item} {w : Walk} {st' : State}
    (h : Reached clean v m pl c st true (item :: items) w st') : Reached clean v m pl c st false items w st'
  | index {span : Span} {x : Tree.Expr} {items : List Tree.Item} {w w' : Walk} {st₁ st' : State}
    (h : Reached clean v m pl c st false (.index span x :: items) w st₁) (hw : w.isFailed = false)
    (hs : Yields clean (indexStep v (m.last items.isEmpty) span x w) pl st₁ w' st') : Reached clean v m pl c st false items w' st'
  | call {call : Tree.Call} {items : List Tree.Item} {w w' : Walk} {st₁ st' : State}
    (h : Reached clean v m pl c st false (.call call :: items) w st₁) (hw : w.isFailed = false)
    (hs : Yields clean (callStep v call w) pl st₁ w' st') : Reached clean v m pl c st false items w' st'
  | member {span : Span} {name : String} {items : List Tree.Item} {w w' : Walk} {used : Bool} {st₁ st' : State}
    (h : Reached clean v m pl c st false (.member span name :: items) w st₁) (hw : w.isFailed = false)
    (hs : Yields clean (memberStep v (m.last items.isEmpty) span name (firstCall? items) w) pl st₁ (w', used) st') :
    Reached clean v m pl c st used items w' st'

/-- A walk is sound, or it has just made the write at the end of its chain. -/
def Walk.SoundOr (m : Mode) (items : List Tree.Item) (w : Walk) : Prop :=
  w.Sound ∨ m.isWrite = true ∧ items = [] ∧ endsInWrite w.links = true

theorem Walk.Moved.soundOr {items : List Tree.Item} (h : w.Moved (m.last items.isEmpty)) : w.SoundOr m items := by
  refine h.imp_right fun hwrite => ?_
  cases items with
  | nil => exact ⟨hwrite.1, rfl, hwrite.2⟩
  | cons item items => cases hwrite.1

theorem Walk.SoundOr.sound {item : Tree.Item} {items : List Tree.Item} (h : w.SoundOr m (item :: items)) : w.Sound :=
  h.resolve_right fun hend => by cases hend.2.1

/-- Wherever the walk along a chain comes to, it is sound unless it has just made the last write. -/
theorem Reached.soundOr (hv : v.Fits) {c : Tree.Chain} {used : Bool} {items : List Tree.Item} {st' : State}
    (h : Reached clean v m pl c st used items w st') : w.SoundOr m items := by
  induction h with
  | root h => exact ((gives_rootStep h.gives).moved hv).soundOr
  | skip h ih => exact .inl ih.sound
  | index h hw hs ih => exact ((gives_indexStep hw hs.gives).moved ih.sound).soundOr
  | call h hw hs ih => exact .inl ((gives_callStep hw hs.gives).sound ih.sound)
  | member h hw hs ih => exact ((gives_memberStep hs.gives).moved ih.sound).soundOr

/-- A chain starts with an expression in parentheses that is analyzed to a value of unknown type. -/
def Unknown (clean : Prop) (pl : Place) (v : Visit) (st : State) (root : Tree.Root) : Prop :=
  ∃ span x y st', root = .paren span x ∧ Yields clean (v.expr x none) pl st (y, none) st'

section Clean

variable {next : Option Tree.Call} {r : Walk × Bool} {t : Option Ty}

theorem NameMoves.goesOn (hclean : clean) (h : NameMoves clean m next w r) : r.1.isFailed = false := by
  cases h with
  | stops hbad => exact absurd hclean hbad
  | _ => rfl

theorem StaticMoves.goesOn (hclean : clean) (h : StaticMoves clean m next w r) : r.1.isFailed = false := by
  cases h with
  | name h => exact h.goesOn hclean
  | item => rfl

theorem MemberMoves.goesOn (hclean : clean) (h : MemberMoves clean m next w t r) : r.1.isFailed = false := by
  cases h with
  | stops hbad => exact absurd hclean hbad
  | _ => rfl

theorem StepMoves.goesOn (hclean : clean) (h : StepMoves clean m next w r) (hw : w.isFailed = false) : r.1.isFailed = false := by
  cases h with
  | static f hstand h => exact h.goesOn hclean
  | value t viaBase hstand h => exact h.goesOn hclean
  | failed hstand h => rw [h, hw]

theorem ThisMoves.goesOn {w' : Walk} (hclean : clean) (h : ThisMoves clean w w') : w'.isFailed = false := by
  cases h with
  | stops hbad => exact absurd hclean hbad
  | reads => rfl

theorem BaseMoves.goesOn {w' : Walk} (hclean : clean) (h : BaseMoves clean w w') : w'.isFailed = false := by
  cases h with
  | stops hbad => exact absurd hclean hbad
  | casts => rfl

theorem RootNameMoves.goesOn (hclean : clean) (h : RootNameMoves clean m next w r) : r.1.isFailed = false := by
  cases h with
  | name h => exact h.goesOn hclean
  | implicit htype hc h => exact h.goesOn hclean

theorem goesOn_rootStep (hclean : clean) {c : Tree.Chain} {st' : State}
    (h : Yields clean (rootStep v (lambda v) m c) pl st r st') : r.1.isFailed = false ∨ Unknown clean pl v st c.root := by
  obtain ⟨span, root, items⟩ := c
  cases root with
  | paren span x =>
    obtain ⟨⟨y, t⟩, st₁, hx, h⟩ := yields_bind.mp h
    obtain ⟨rfl, rfl⟩ := yields_pure.mp h
    cases t with
    | none => exact .inr ⟨_, _, _, _, rfl, hx⟩
    | some t => exact .inl rfl
  | name span name =>
    cases gives_rootStep h.gives with
    | name hname => exact .inl (hname.goesOn hclean)
  | this span =>
    cases gives_rootStep h.gives with
    | this hthis => exact .inl (hthis.goesOn hclean)
  | base span =>
    cases gives_rootStep h.gives with
    | base hbase => exact .inl (hbase.goesOn hclean)
  | lambda fn =>
    cases gives_rootStep h.gives with
    | lambda => exact .inl rfl

/-- Without a problem, a walk stops only at the start, at a value of unknown type. -/
theorem Reached.goesOn (hclean : clean) {c : Tree.Chain} {used : Bool} {items : List Tree.Item} {st' : State}
    (h : Reached clean v m pl c st used items w st') : w.isFailed = false ∨ Unknown clean pl v st c.root := by
  induction h with
  | root h => exact goesOn_rootStep hclean h
  | skip h ih => exact ih
  | index h hw hs ih =>
    cases gives_indexStep hw hs.gives with
    | stops hbad => exact absurd hclean hbad
    | reads => exact .inl rfl
  | call h hw hs ih =>
    cases gives_callStep hw hs.gives with
    | stops hbad => exact absurd hclean hbad
    | calls => exact .inl rfl
  | member h hw hs ih => exact .inl ((gives_memberStep hs.gives).goesOn hclean hw)

end Clean

/-- The walk goes on to the last item unless it meets a problem. -/
theorem Reached.follow {c : Tree.Chain} {used : Bool} {items : List Tree.Item} {w' : Walk} {st₁ st' : State}
    (h : Reached clean v m pl c st used items w st₁) (hf : Yields clean (followItems v m used items w) pl st₁ w' st') :
    ∃ used' items', Reached clean v m pl c st used' items' w' st' ∧ (w'.isFailed = false → items' = []) := by
  induction items generalizing used w st₁ with
  | nil =>
    obtain ⟨rfl, rfl⟩ := yields_pure.mp hf
    exact ⟨used, [], h, fun _ => rfl⟩
  | cons item items ih =>
    cases used with
    | true => exact ih h.skip hf
    | false =>
      rw [followItems] at hf
      split at hf
      · next hfailed =>
        obtain ⟨rfl, rfl⟩ := yields_pure.mp hf
        exact ⟨false, item :: items, h, fun hok => by rw [hfailed] at hok; cases hok⟩
      · next hok =>
        have hok := Bool.eq_false_of_not_eq_true hok
        cases item with
        | index span x =>
          obtain ⟨w₁, st₂, hs, hf⟩ := yields_bind.mp hf
          exact ih (h.index hok hs) hf
        | call c' =>
          obtain ⟨w₁, st₂, hs, hf⟩ := yields_bind.mp hf
          exact ih (h.call hok hs) hf
        | member span name =>
          obtain ⟨⟨w₁, used⟩, st₂, hs, hf⟩ := yields_bind.mp hf
          exact ih (h.member hok hs) hf

/-- A chain ends where its walk does. The walk has gone on to the last item unless it has met a problem, and it comes to
a value at the end if no problem is reported, unless the chain starts with a value of unknown type. -/
theorem reached_chainOf {c : Tree.Chain} {r : Typed.Chain × Option Ty} {st' : State}
    (h : Yields clean (chainOf v m c) pl st r st') :
    ∃ used items w st₁, Reached clean v m pl c st used items w st₁ ∧ Ends clean m w r ∧
      (w.isFailed = false → items = []) ∧ (clean → (∃ t, w.Done m t) ∨ Unknown clean pl v st c.root) := by
  obtain ⟨w₀, used₀, st₁, w, st₂, hroot, hitems, hends⟩ := yields_chain h
  obtain ⟨used, items, hreached, hend⟩ := (Reached.root hroot).follow hitems
  exact ⟨used, items, w, st₂, hreached, hends, hend, fun hc => (hreached.goesOn hc).imp_left (hends.stops hc)⟩

end Weft.Analysis
