import Weft.Proofs.Analysis.ChainWalk

/-!
# The accesses that a chain is made of

The root of a chain brings what stands in front of the chain, and each of the steps that follow adds one access: the
names of namespaces and types add none, and the name of a function or method adds one together with its call. Whatever is
followed by another step reads or calls, so that only the end of the chain may write.
-/

namespace Weft

namespace Typed

/-- Whether a kind reads a value or calls a function. -/
def CallKind.readsOrCalls : CallKind → Bool
  | .readVar | .readGlobal | .readField | .arrayGet | .mapGet => true
  | k => k.isCall

/-- Whether an expression of a chain reads a value or calls a function. -/
def Expr.readsOrCalls : Expr → Bool
  | .call c => c.access.kind.readsOrCalls
  | _ => false

theorem Access.readsOrCalls {a : Access} (hsort : a.sort ≠ .reference) (hread : a.kind.isWrite = false) :
    a.kind.readsOrCalls = true := by
  cases a <;> first | rfl | exact absurd rfl hsort | cases hread

end Typed

/-- The steps of a chain: the name that it starts with, if it starts with one, and its items. -/
def Tree.Chain.parts (c : Tree.Chain) : List Tree.Item :=
  match c.root with
  | .name span name => .member span name :: c.items
  | _ => c.items

namespace Analysis

open Typed (Expr AccessSort)

/-- How far a chain has come: it has gone through names of namespaces and types only, it is at a value, or it is at a
value that nothing may follow. -/
inductive Stage where
  | names | value | closed
deriving DecidableEq, Repr

/-- What the root of a chain brings before any step: `this`, whether or not it is written, `this` as an instance of the
superclass, or a value. A name brings nothing, because it is a step by itself. -/
inductive Opens (pl : Place) (v : Visit) : Tree.Root → List Expr → Stage → Prop where
  | name (span : Span) (name : String) : Opens pl v (.name span name) [] .names
  | implicit {span : Span} {name : String} {c : Typed.Call} (h : Accesses .read .name [] c) :
    Opens pl v (.name span name) [.call c] .value
  | this {span : Span} {c : Typed.Call} (h : Accesses .read .name [] c) : Opens pl v (.this span) [.call c] .value
  | base {span : Span} {line : Nat} {t : Option Ty} {c : Typed.Call} (h : Accesses .read .name [] c) :
    Opens pl v (.base span) [.cast line .explicit t (.call c)] .value
  | paren {span : Span} {x : Tree.Expr} {y : Expr} {t : Option Ty} (h : Gives False pl (v.expr x none) (y, t)) :
    Opens pl v (.paren span x) [y] .value
  | lambda {fn : Tree.Lambda} {y : Expr} {t : Option Ty} (h : Gives False pl (lambda v fn) (y, t)) :
    Opens pl v (.lambda fn) [y] .value

/-- What the steps of a chain add behind its root. Only the last step is taken in the mode of the chain. -/
inductive Laid (pl : Place) (v : Visit) (first : Stage) : Mode → List Tree.Item → List Expr → Stage → Prop where
  | nil {m : Mode} : Laid pl v first m [] [] first
  | enters {m : Mode} {items : List Tree.Item} {made : List Expr} {span : Span} {name : String}
    (h : Laid pl v first .read items made .names) :
    Laid pl v first m (items ++ [Tree.Item.member span name]) made .names
  | name {m : Mode} {items : List Tree.Item} {made : List Expr} {span : Span} {name : String} {c : Typed.Call}
    (h : Laid pl v first .read items made .names) (hc : Accesses m .name [] c) :
    Laid pl v first m (items ++ [Tree.Item.member span name]) (made ++ [Expr.call c]) .value
  | reference {m : Mode} {items : List Tree.Item} {made : List Expr} {span : Span} {name : String} {c : Typed.Call}
    (h : Laid pl v first .read items made .names) (hc : c.access.sort = .reference) (hkids : c.children = []) :
    Laid pl v first m (items ++ [Tree.Item.member span name]) (made ++ [Expr.call c]) .closed
  | literal {m : Mode} {items : List Tree.Item} {made : List Expr} {span : Span} {name : String}
    (h : Laid pl v first .read items made .names) (line : Nat) (n : Int) (e : EnumId) :
    Laid pl v first m (items ++ [Tree.Item.member span name]) (made ++ [Expr.literal line (.int n) (.enumeration e)]) .closed
  | function {m : Mode} {items : List Tree.Item} {made : List Expr} {span : Span} {name : String} {call : Tree.Call}
    {c : Typed.Call} (h : Laid pl v first .read items made .names) (hc : c.access.sort = .function) :
    Laid pl v first m (items ++ [Tree.Item.member span name, Tree.Item.call call]) (made ++ [Expr.call c]) .value
  | member {m : Mode} {items : List Tree.Item} {made : List Expr} {span : Span} {name : String} {c : Typed.Call}
    (h : Laid pl v first .read items made .value) (hc : Accesses m .member [] c) :
    Laid pl v first m (items ++ [Tree.Item.member span name]) (made ++ [Expr.call c]) .value
  | method {m : Mode} {items : List Tree.Item} {made : List Expr} {span : Span} {name : String} {call : Tree.Call}
    {c : Typed.Call} (h : Laid pl v first .read items made .value) (hc : c.access.sort = .method) :
    Laid pl v first m (items ++ [Tree.Item.member span name, Tree.Item.call call]) (made ++ [Expr.call c]) .value
  | index {m : Mode} {items : List Tree.Item} {made : List Expr} {span : Span} {x : Tree.Expr} {expect t : Option Ty}
    {i : Expr} {c : Typed.Call} (h : Laid pl v first .read items made .value) (hx : Gives False pl (v.expr x expect) (i, t))
    (hc : Accesses m .index [i] c) : Laid pl v first m (items ++ [Tree.Item.index span x]) (made ++ [Expr.call c]) .value
  | call {m : Mode} {items : List Tree.Item} {made : List Expr} {call : Tree.Call} {c : Typed.Call}
    (h : Laid pl v first .read items made .value) (hc : c.access.sort = .pointer) :
    Laid pl v first m (items ++ [Tree.Item.call call]) (made ++ [Expr.call c]) .value

variable {clean : Prop} {pl : Place} {v : Visit} {m : Mode} {st : State}

/-! ## Reads, calls and writes -/

theorem Accesses.readsOrCalls {sort : AccessSort} {kids : List Expr} {c : Typed.Call} (h : Accesses m sort kids c)
    (hm : m = .read) (hsort : sort ≠ .reference) : (Expr.call c).readsOrCalls = true := by
  subst hm
  exact Typed.Access.readsOrCalls (by rw [h.sort]; exact hsort) h.isWrite

theorem readsOrCalls_of_sort {sort : AccessSort} {c : Typed.Call} (h : c.access.sort = sort) (hsort : sort ≠ .reference)
    (hwrite : sort.mayWrite = false) : (Expr.call c).readsOrCalls = true := by
  subst h
  exact Typed.Access.readsOrCalls hsort (Typed.Access.isWrite_eq_false hwrite)

/-- Only the last access of a chain may do anything else than read or call, and it does if it writes or if nothing may
follow it. -/
theorem Laid.reads {first s : Stage} {items : List Tree.Item} {made : List Expr} (h : Laid pl v first m items made s) :
    (m = .read → s ≠ .closed → ∀ x ∈ made, x.readsOrCalls = true) ∧ ∀ x ∈ made.dropLast, x.readsOrCalls = true := by
  have add : ∀ {m : Mode} {s : Stage} {made : List Expr} {x : Expr}, (∀ y ∈ made, y.readsOrCalls = true) →
      (m = .read → s ≠ .closed → x.readsOrCalls = true) →
      (m = .read → s ≠ .closed → ∀ y ∈ made ++ [x], y.readsOrCalls = true) ∧
        ∀ y ∈ (made ++ [x]).dropLast, y.readsOrCalls = true := by
    intro m s made x hmade hx
    constructor
    · intro hm hs y hy
      rcases List.mem_append.mp hy with hy | hy
      · exact hmade y hy
      · obtain rfl := List.mem_singleton.mp hy
        exact hx hm hs
    · rw [List.dropLast_concat]
      exact hmade
  induction h with
  | nil => exact ⟨fun _ _ x hx => (List.not_mem_nil hx).elim, fun x hx => (List.not_mem_nil hx).elim⟩
  | enters h ih =>
    have hmade := ih.1 rfl (by decide)
    exact ⟨fun _ _ => hmade, fun x hx => hmade x (List.mem_of_mem_dropLast hx)⟩
  | name h hc ih => exact add (ih.1 rfl (by decide)) fun hm _ => hc.readsOrCalls hm (by decide)
  | reference h hc hkids ih => exact add (ih.1 rfl (by decide)) fun _ hs => absurd rfl hs
  | literal h line n e ih => exact add (ih.1 rfl (by decide)) fun _ hs => absurd rfl hs
  | function h hc ih => exact add (ih.1 rfl (by decide)) fun _ _ => readsOrCalls_of_sort hc (by decide) rfl
  | member h hc ih => exact add (ih.1 rfl (by decide)) fun hm _ => hc.readsOrCalls hm (by decide)
  | method h hc ih => exact add (ih.1 rfl (by decide)) fun _ _ => readsOrCalls_of_sort hc (by decide) rfl
  | index h hx hc ih => exact add (ih.1 rfl (by decide)) fun hm _ => hc.readsOrCalls hm (by decide)
  | call h hc ih => exact add (ih.1 rfl (by decide)) fun _ _ => readsOrCalls_of_sort hc (by decide) rfl

/-- The root of a chain does not write. -/
theorem Opens.not_write (hv : v.Fits) {root : Tree.Root} {own : List Expr} {s : Stage} (h : Opens pl v root own s) :
    endsInWrite own = false := by
  have hnode : ∀ {y : Expr}, (∀ c, y ≠ .call c) → endsInWrite [y] = false := by
    intro y hy
    cases y with
    | call c => exact absurd rfl (hy c)
    | _ => rfl
  cases h with
  | name => rfl
  | implicit h => exact h.isWrite
  | this h => exact h.isWrite
  | base h => rfl
  | paren h => exact hnode (hv h).node
  | lambda h => exact hnode (fits_lambda h).1.node

/-- A chain ends in a write only if it is to be written. -/
theorem Laid.write {first s : Stage} {items : List Tree.Item} {own made : List Expr} (h : Laid pl v first m items made s)
    (hown : endsInWrite own = false) (hend : endsInWrite (own ++ made) = true) : m.isWrite = true := by
  have hsort : ∀ {m : Mode} {made : List Expr} {c : Typed.Call} {sort : AccessSort}, c.access.sort = sort →
      sort.mayWrite = false → endsInWrite (own ++ (made ++ [Expr.call c])) = true → m.isWrite = true := by
    intro m made c sort hc hs hend
    rw [← List.append_assoc, endsInWrite_append] at hend
    exact moves_of_sort (by rw [hc]; exact hs) hend
  have haccess : ∀ {m : Mode} {made kids : List Expr} {c : Typed.Call} {sort : AccessSort}, Accesses m sort kids c →
      endsInWrite (own ++ (made ++ [Expr.call c])) = true → m.isWrite = true := by
    intro m made kids c sort hc hend
    rw [← List.append_assoc, endsInWrite_append] at hend
    exact hc.moves hend
  induction h with
  | nil =>
    rw [List.append_nil, hown] at hend
    cases hend
  | enters h ih => cases ih hend
  | name h hc ih => exact haccess hc hend
  | reference h hc hkids ih => exact hsort hc rfl hend
  | literal h line n e ih =>
    rw [← List.append_assoc] at hend
    simp [endsInWrite] at hend
  | function h hc ih => exact hsort hc rfl hend
  | member h hc ih => exact haccess hc hend
  | method h hc ih => exact hsort hc rfl hend
  | index h hx hc ih => exact haccess hc hend
  | call h hc ih => exact hsort hc rfl hend

/-! ## The accesses along a chain -/

/-- What a root and some steps behind it add up to. -/
inductive Spread (pl : Place) (v : Visit) (root : Tree.Root) (m : Mode) (items : List Tree.Item) (links : List Expr)
    (s : Stage) : Prop where
  | mk {first : Stage} {own made : List Expr} (opens : Opens pl v root own first)
    (laid : Laid pl v first m items made s) (hlinks : links = own ++ made)

/-- The items that are left when the first of them is used or not. -/
def unused : Bool → List Tree.Item → List Tree.Item
  | true, items => items.tail
  | false, items => items

/-- A walk stands where its stage says, with some items left. -/
def Stage.At (s : Stage) (stand : Stand) (left : List Tree.Item) : Prop :=
  match s with
  | .names => ∃ f, stand = .static f
  | .value => ∃ t viaBase, stand = .value t viaBase
  | .closed => ∃ t viaBase, stand = .value t viaBase ∧ ¬HasMembers t ∧
      ∀ sig, t = some (.func sig) → firstCall? left = none

/-- What a walk has made of the steps of a chain: of those before the items that are left, or of fewer if it has met a
problem. -/
inductive Along (pl : Place) (v : Visit) (root : Tree.Root) (m : Mode) (parts : List Tree.Item) (used : Bool)
    (items : List Tree.Item) (w : Walk) : Prop where
  | stuck (hw : w.stand = .failed) (hlinks : w.links = [])
  | stopped {before left : List Tree.Item} {s : Stage} (hw : w.stand = .failed) (hparts : parts = before ++ left)
    (h : Spread pl v root .read before w.links s)
  | on {before : List Tree.Item} {s : Stage} (hparts : parts = before ++ unused used items)
    (h : Spread pl v root (m.last (unused used items).isEmpty) before w.links s)
    (hs : s.At w.stand (unused used items))

section Steps

variable {root : Tree.Root} {before items parts : List Tree.Item} {span : Span} {name : String} {w : Walk} {r : Walk × Bool}
  {s : Stage} {used : Bool}

/-- One more step that is taken. -/
theorem Spread.add {m' : Mode} {s' : Stage} {more : List Tree.Item} {links xs : List Expr}
    (h : Spread pl v root m before links s)
    (hadd : ∀ {first made}, Laid pl v first m before made s → Laid pl v first m' (before ++ more) (made ++ xs) s') :
    Spread pl v root m' (before ++ more) (links ++ xs) s' := by
  obtain ⟨opens, laid, rfl⟩ := h
  exact ⟨opens, hadd laid, List.append_assoc _ _ _⟩

/-- The call that follows a step is the first of the items left. -/
theorem firstCall?_eq_some {items : List Tree.Item} {c : Tree.Call} (h : firstCall? items = some c) :
    ∃ rest, items = .call c :: rest := by
  unfold firstCall? at h
  split at h
  · obtain rfl := Option.some.inj h
    exact ⟨_, rfl⟩
  · cases h

theorem NameMoves.along (h : NameMoves clean (m.last items.isEmpty) (firstCall? items) w r)
    (hw : Spread pl v root .read before w.links .names) (hparts : parts = before ++ .member span name :: items) :
    Along pl v root m parts r.2 items r.1 := by
  have hone : parts = (before ++ [Tree.Item.member span name]) ++ items := by simp [hparts]
  cases h with
  | stops _ => exact .stopped rfl hparts hw
  | enters f =>
    obtain ⟨opens, laid, hlinks⟩ := hw
    exact .on (s := .names) hone ⟨opens, laid.enters, hlinks⟩ ⟨f, rfl⟩
  | reads hc => exact .on hone (hw.add fun h => h.name hc) ⟨_, _, rfl⟩
  | refers hnext hsort htype hkids =>
    refine .on hone (hw.add fun h => h.reference hsort hkids) ⟨_, _, rfl, ?_, fun _ _ => hnext⟩
    rw [htype]
    exact id
  | @calls c call hnext hc =>
    obtain ⟨rest, rfl⟩ := firstCall?_eq_some hnext
    have htwo : parts = (before ++ [Tree.Item.member span name, Tree.Item.call call]) ++ rest := by simp [hparts]
    exact .on htwo (hw.add fun h => h.function hc) ⟨_, _, rfl⟩

theorem StaticMoves.along (h : StaticMoves clean (m.last items.isEmpty) (firstCall? items) w r)
    (hw : Spread pl v root .read before w.links .names) (hparts : parts = before ++ .member span name :: items) :
    Along pl v root m parts r.2 items r.1 := by
  cases h with
  | name h => exact h.along hw hparts
  | item line n e =>
    have hone : parts = (before ++ [Tree.Item.member span name]) ++ items := by simp [hparts]
    exact .on hone (hw.add fun h => h.literal line n e) ⟨_, _, rfl, id, fun sig h => by cases h⟩

theorem MemberMoves.along {t : Option Ty} (h : MemberMoves clean (m.last items.isEmpty) (firstCall? items) w t r)
    (hw : Spread pl v root .read before w.links .value) (hparts : parts = before ++ .member span name :: items) :
    Along pl v root m parts r.2 items r.1 := by
  have hone : parts = (before ++ [Tree.Item.member span name]) ++ items := by simp [hparts]
  cases h with
  | stops _ => exact .stopped rfl hparts hw
  | reads ht hc => exact .on hone (hw.add fun h => h.member hc) ⟨_, _, rfl⟩
  | @calls c call ht hnext hc =>
    obtain ⟨rest, rfl⟩ := firstCall?_eq_some hnext
    have htwo : parts = (before ++ [Tree.Item.member span name, Tree.Item.call call]) ++ rest := by simp [hparts]
    exact .on htwo (hw.add fun h => h.method hc) ⟨_, _, rfl⟩

/-- A walk that has not met a problem, with an item that is to be taken next. -/
structure Next (pl : Place) (v : Visit) (root : Tree.Root) (parts before : List Tree.Item) (item : Tree.Item)
    (items : List Tree.Item) (w : Walk) (s : Stage) : Prop where
  parts : parts = before ++ item :: items
  spread : Spread pl v root .read before w.links s
  stage : s.At w.stand (item :: items)

theorem Along.next {item : Tree.Item} (h : Along pl v root m parts false (item :: items) w) (hw : w.isFailed = false) :
    ∃ before s, Next pl v root parts before item items w s := by
  cases h with
  | stuck hfailed => simp [isFailed_iff.mpr hfailed] at hw
  | stopped hfailed => simp [isFailed_iff.mpr hfailed] at hw
  | on hparts h hs => exact ⟨_, _, hparts, h, hs⟩

/-- Only an open value has members, elements or calls behind it. -/
theorem Next.value {item : Tree.Item} {t : Option Ty} {viaBase : Bool} (h : Next pl v root parts before item items w s)
    (hw : w.stand = .value t viaBase) (ht : HasMembers t ∨ ∃ sig call, t = some (.func sig) ∧ item = .call call) :
    s = .value := by
  have hs := h.stage
  cases s with
  | value => rfl
  | names =>
    obtain ⟨f, hf⟩ := hs
    rw [hw] at hf
    cases hf
  | closed =>
    obtain ⟨t', b, hstand, hmembers, hcall⟩ := hs
    rw [hw] at hstand
    cases hstand
    rcases ht with ht | ⟨sig, call, rfl, rfl⟩
    · exact absurd ht hmembers
    · cases hcall sig rfl

theorem StepMoves.along (h : StepMoves clean (m.last items.isEmpty) (firstCall? items) w r)
    (hw : Next pl v root parts before (.member span name) items w s) : Along pl v root m parts r.2 items r.1 := by
  obtain ⟨hparts, hspread, hs⟩ := id hw
  cases h with
  | static f hstand h =>
    cases s with
    | names => exact h.along hspread hparts
    | value =>
      obtain ⟨t, b, ht⟩ := hs
      rw [hstand] at ht
      cases ht
    | closed =>
      obtain ⟨t, b, ht, -⟩ := hs
      rw [hstand] at ht
      cases ht
  | value t viaBase hstand h =>
    by_cases ht : HasMembers t
    · obtain rfl := hw.value hstand (.inl ht)
      exact h.along hspread hparts
    · cases h with
      | stops _ => exact .stopped rfl hparts hspread
      | reads ht' hc => exact absurd ht' ht
      | calls ht' hnext hc => exact absurd ht' ht
  | failed hstand h =>
    rw [h]
    exact .stopped hstand hparts hspread

theorem IndexMoves.along {x : Tree.Expr} {w' : Walk} (h : IndexMoves clean pl v (m.last items.isEmpty) x w w')
    (hw : Next pl v root parts before (.index span x) items w s) : Along pl v root m parts false items w' := by
  cases h with
  | stops _ => exact .stopped rfl hw.parts hw.spread
  | reads hstand ht hx hc =>
    obtain rfl := hw.value hstand (.inl ht)
    have hone : parts = (before ++ [Tree.Item.index span x]) ++ items := by simp [hw.parts]
    exact .on hone (hw.spread.add fun h => h.index hx.weaken hc) ⟨_, _, rfl⟩

theorem CallMoves.along {call : Tree.Call} {w' : Walk} (h : CallMoves clean w w')
    (hw : Next pl v root parts before (.call call) items w s) : Along pl v root m parts false items w' := by
  cases h with
  | stops _ => exact .stopped rfl hw.parts hw.spread
  | calls hstand hc =>
    obtain rfl := hw.value hstand (.inr ⟨_, call, rfl, rfl⟩)
    have hone : parts = (before ++ [Tree.Item.call call]) ++ items := by simp [hw.parts]
    exact .on hone (hw.spread.add fun h => h.call hc) ⟨_, _, rfl⟩

end Steps

theorem RootMoves.along {c : Tree.Chain} {r : Walk × Bool} (h : RootMoves clean pl v m c.root c.items r) :
    Along pl v c.root m c.parts r.2 c.items r.1 := by
  obtain ⟨span, root, items⟩ := c
  have hopens : ∀ {own : List Expr} {s : Stage}, Opens pl v root own s → ∀ {m : Mode}, Spread pl v root m [] own s :=
    fun h _ => ⟨h, .nil, (List.append_nil _).symm⟩
  dsimp only at h ⊢
  cases h with
  | name h =>
    cases h with
    | name h => exact h.along (hopens (.name _ _)) rfl
    | implicit htype hc h => exact h.along (hopens (.implicit hc)) rfl
  | this h =>
    cases h with
    | stops _ => exact .stuck rfl rfl
    | reads htype hc => exact .on rfl (hopens (.this hc)) ⟨_, _, rfl⟩
  | base h =>
    cases h with
    | stops _ => exact .stuck rfl rfl
    | casts hc => exact .on rfl (hopens (.base hc)) ⟨_, _, rfl⟩
  | paren h => exact .on rfl (hopens (.paren h.weaken)) ⟨_, _, rfl⟩
  | stuck h => exact .stopped rfl rfl (hopens (.paren h.weaken))
  | lambda h => exact .on rfl (hopens (.lambda h.weaken)) ⟨_, _, rfl⟩

/-- Whatever a walk comes to, it has made one access for each of the steps behind it. -/
theorem Reached.along {c : Tree.Chain} {used : Bool} {items : List Tree.Item} {w : Walk} {st' : State}
    (h : Reached clean v m pl c st used items w st') : Along pl v c.root m c.parts used items w := by
  induction h with
  | root h => exact (gives_rootStep h.gives).along
  | skip h ih =>
    cases ih with
    | stuck hw hlinks => exact .stuck hw hlinks
    | stopped hw hparts h => exact .stopped hw hparts h
    | on hparts h hs => exact .on hparts h hs
  | index h hw hs ih =>
    obtain ⟨before, s, hnext⟩ := ih.next hw
    exact (gives_indexStep hw hs.gives).along hnext
  | call h hw hs ih =>
    obtain ⟨before, s, hnext⟩ := ih.next hw
    exact (gives_callStep hw hs.gives).along hnext
  | member h hw hs ih =>
    obtain ⟨before, s, hnext⟩ := ih.next hw
    exact (gives_memberStep hs.gives).along hnext

/-! ## Whole chains -/

theorem Along.spread {c : Tree.Chain} {used : Bool} {w : Walk} {t : Option Ty}
    (h : Along pl v c.root m c.parts used [] w) (hw : w.Done m t) : ∃ s, Spread pl v c.root m c.parts w.links s := by
  obtain ⟨⟨viaBase, hstand⟩, -⟩ := hw
  have hfailed : w.stand ≠ .failed := by simp [hstand]
  have hleft : unused used [] = [] := by cases used <;> rfl
  cases h with
  | stuck hw hlinks => exact absurd hw hfailed
  | stopped hw hparts h => exact absurd hw hfailed
  | on hparts h hs =>
    rw [hleft] at hparts h
    rw [hparts, List.append_nil]
    exact ⟨_, h⟩

/-- A chain that is resolved is one access for each of its steps behind the names of namespaces and types, and one for the
name of a function or method with its call. All but the last read or call, and the last writes if the chain is to be
written. -/
structure Resolved (pl : Place) (v : Visit) (m : Mode) (c : Tree.Chain) (links own made : List Expr)
    (first last : Stage) : Prop where
  opens : Opens pl v c.root own first
  laid : Laid pl v first m c.parts made last
  joined : links = own ++ made
  reads : ∀ x ∈ made.dropLast, x.readsOrCalls = true
  write : endsInWrite links = m.isWrite

theorem Spread.resolved (hv : v.Fits) {c : Tree.Chain} {links : List Expr} {last : Stage}
    (h : Spread pl v c.root m c.parts links last) (hwrite : m.isWrite = true → endsInWrite links = true) :
    ∃ own made first, Resolved pl v m c links own made first last := by
  obtain @⟨first, own, made, hopens, hlaid, rfl⟩ := h
  refine ⟨own, made, first, hopens, hlaid, rfl, hlaid.reads.2, ?_⟩
  exact Bool.eq_iff_iff.mpr ⟨hlaid.write (hopens.not_write hv), hwrite⟩

/-- Wherever the walk along a chain comes to without a problem, it stands at a namespace or type and has made no access,
or the accesses that it has made leave just the value at which it stands, unless it has just made the last write. If it
comes to the end of the chain, it has taken all of its steps, each as a read or call but for the last. It does come to the
end if no problem is reported, unless the chain starts with a value of unknown type. -/
theorem chain_walk (n : Nat) (m : Mode) (c : Tree.Chain) (pl : Place) (st : State) :
    (∀ {used items w st'}, Reached False (visit n) m pl c st used items w st' → w.SoundOr m items) ∧
    ∀ {clean : Prop} {r st'}, Yields clean (chainOf (visit n) m c) pl st r st' →
      ∃ used items w st₁, Reached clean (visit n) m pl c st used items w st₁ ∧ Ends clean m w r ∧
        (∀ t, w.Done m t → items = [] ∧
          ∃ own made first last, Resolved pl (visit n) m c r.1.links own made first last) ∧
        (clean → (∃ t, w.Done m t) ∨ Unknown clean pl (visit n) st c.root) := by
  have hv : (visit n).Fits := fits_visit n
  refine ⟨fun h => h.soundOr hv, fun {clean r st'} h => ?_⟩
  obtain ⟨used, items, w, st₁, hreached, hends, hend, hclean⟩ := reached_chainOf h
  refine ⟨used, items, w, st₁, hreached, hends, fun t ht => ?_, hclean⟩
  obtain ⟨⟨viaBase, hstand⟩, hwrite⟩ := id ht
  have hempty : items = [] := hend (by simp [Walk.isFailed, hstand])
  subst hempty
  obtain ⟨s, hspread⟩ := hreached.along.spread ht
  obtain ⟨own, made, first, hresolved⟩ := hspread.resolved hv hwrite
  rw [hends.links]
  exact ⟨rfl, own, made, first, s, hresolved⟩

namespace PointerCall

/-- A place in the first line. -/
private def span (start stop : Nat) : Span := ⟨⟨start, 1, start + 1⟩, ⟨stop, 1, stop + 1⟩⟩

/-- A variable that holds a function. -/
def cb : LocalVar := { name := "cb", type := some (.func ⟨.int, [], 0, false⟩), slot := 0, ref := false }

/-- A file with an empty root namespace. -/
def place : Place := { file := "m.weft", scope := .file ⟨0⟩ }

/-- A body with the variable. -/
def start : State := { store := .empty, bodies := [(Body.empty default).add cb] }

/-- The call of the variable. -/
def plain : Tree.Chain := ⟨span 0 4, .name (span 0 2) "cb", [.call ⟨span 2 4, []⟩]⟩

/-- The call of the variable in parentheses. -/
def grouped : Tree.Chain :=
  ⟨span 0 6, .paren (span 0 4) (.chain ⟨span 1 3, .name (span 1 3) "cb", []⟩), [.call ⟨span 4 6, []⟩]⟩

/-- The access that reads the variable. -/
def reading : Expr := access 1 (.readVar cb) "cb" cb.type []

/-- The access that calls what stands before it. -/
def calling (call : Span) : Expr :=
  .call { line := 1, access := .funcPtr, name := "", type := some .int, args := .empty,
          site := some ⟨call, "func value", false⟩, children := [] }

theorem accepts_plain :
    Accepts (chainOf (visit 2) .read plain) place start
      (⟨1, some .int, false, [reading, calling (span 2 4)]⟩, some .int) start := by
  unfold Accepts
  cbv

theorem accepts_grouped :
    Accepts (chainOf (visit 2) .read grouped) place start
      (⟨1, some .int, false, [.chain ⟨1, cb.type, false, [reading]⟩, calling (span 4 6)]⟩, some .int) start := by
  unfold Accepts
  cbv

end PointerCall

theorem chain_walk_plain :
    ∃ r st', Yields True (chainOf (visit 2) .read PointerCall.plain) PointerCall.place PointerCall.start r st' ∧
      ∃ own made first last,
        Resolved PointerCall.place (visit 2) .read PointerCall.plain r.1.links own made first last := by
  have h : Yields True _ _ _ _ _ := PointerCall.accepts_plain.yields
  obtain ⟨used, items, w, st₁, hreached, hends, hdone, -⟩ :=
    (chain_walk 2 .read PointerCall.plain PointerCall.place PointerCall.start).2 h
  exact ⟨_, _, h, (hdone _ (hends.known .int rfl)).2⟩

/-- The name of a variable that holds a function adds an access of its own in front of the call, and a value in
parentheses may be something else than a read or a call. -/
theorem chain_walk_pointer :
    (∃ span name call, PointerCall.plain.parts = [.member span name, .call call]) ∧
      (∃ r st', Accepts (chainOf (visit 2) .read PointerCall.plain) PointerCall.place PointerCall.start r st' ∧
        r.1.links.length = 2) ∧
      ∃ r st', Accepts (chainOf (visit 2) .read PointerCall.grouped) PointerCall.place PointerCall.start r st' ∧
        ∃ x ∈ r.1.links.dropLast, x.readsOrCalls = false := by
  refine ⟨⟨_, _, _, rfl⟩, ⟨_, _, PointerCall.accepts_plain, rfl⟩, _, _, PointerCall.accepts_grouped, ?_⟩
  exact ⟨_, List.mem_cons_self, rfl⟩

end Analysis

end Weft
