import Weft.Proofs.Analysis.Accepted

/-!
# What a step of a chain does

A chain is resolved step by step. A step meets a problem, enters a namespace or a type, or adds one access. What each
step may do is said here once, whatever problems are reported on the way.
-/

namespace Weft

namespace Typed

/-- What an access goes by: the name of a variable, the name of a function or a variable that is not used, the name of a
function that is called, a member, a method, an index, or a value that is called. -/
inductive AccessSort where
  | name | reference | function | member | method | index | pointer
deriving DecidableEq, Repr

/-- What an access goes by. -/
def Access.sort : Access → AccessSort
  | readVar _ | writeVar _ | readGlobal _ | writeGlobal _ => .name
  | varRef _ | funcRef _ => .reference
  | func _ => .function
  | readField _ | readNative _ | writeField _ | initField _ => .member
  | method _ | methodNative _ | methodVirtual _ | methodIface _ => .method
  | arrayGet | arraySet | mapGet | mapSet => .index
  | funcPtr => .pointer

/-- Whether an access takes the value that the accesses before it have left. -/
def AccessSort.onValue : AccessSort → Bool
  | name | reference | function => false
  | member | method | index | pointer => true

/-- Whether there is an access of the sort that writes. -/
def AccessSort.mayWrite : AccessSort → Bool
  | name | member | index => true
  | reference | function | method | pointer => false

theorem Access.isWrite_eq_false {a : Access} (h : a.sort.mayWrite = false) : a.kind.isWrite = false := by
  cases a <;> first | rfl | cases h

end Typed

namespace Analysis

open Typed (Expr AccessSort)

/-! ## Analyses that end -/

/-- The analysis ends with a result and a state. If it is to be clean, it reports no problem. -/
structure Yields (clean : Prop) {α : Type} (m : Analysis α) (pl : Place) (st : State) (a : α) (st' : State) : Prop where
  value : (m pl st).value = (.ok a, st')
  problems : clean → (m pl st).problems = []

/-- A result with which the analysis may end, in whatever state it starts. -/
def Gives (clean : Prop) {α : Type} (pl : Place) (m : Analysis α) (a : α) : Prop :=
  ∃ st st', Yields clean m pl st a st'

section Monad

variable {clean : Prop} {α β : Type} {pl : Place} {st st₁ st' : State} {m : Analysis α} {f : α → Analysis β} {a : α}
  {b : β}

theorem Accepts.yields (h : Accepts m pl st a st') : Yields clean m pl st a st' :=
  ⟨congrArg Reported.value h, fun _ => congrArg Reported.problems h⟩

theorem Yields.weaken (h : Yields clean m pl st a st') : Yields False m pl st a st' := ⟨h.value, False.elim⟩

theorem Yields.gives (h : Yields clean m pl st a st') : Gives clean pl m a := ⟨st, st', h⟩

theorem Gives.weaken (h : Gives clean pl m a) : Gives False pl m a := by
  obtain ⟨st, st', h⟩ := h
  exact h.weaken.gives

theorem bind_run_of_value (h : (m pl st).value = (.ok a, st₁)) :
    (m >>= f) pl st = ⟨(f a pl st₁).value, (m pl st).problems ++ (f a pl st₁).problems⟩ := by
  rw [bind_run]
  rcases hm : m pl st with ⟨r, ds⟩
  obtain rfl : r = (.ok a, st₁) := by rw [← h, hm]
  rfl

theorem yields_bind :
    Yields clean (m >>= f) pl st b st' ↔ ∃ a st₁, Yields clean m pl st a st₁ ∧ Yields clean (f a) pl st₁ b st' := by
  constructor
  · rintro ⟨hvalue, hproblems⟩
    rcases hm : (m pl st).value with ⟨_ | a, st₁⟩
    · rw [bind_run] at hvalue
      rcases hrun : m pl st with ⟨r, ds⟩
      rw [hrun] at hm hvalue
      obtain rfl := hm
      cases hvalue
    · rw [bind_run_of_value hm] at hvalue hproblems
      simp only [List.append_eq_nil_iff] at hproblems
      exact ⟨a, st₁, ⟨hm, fun hc => (hproblems hc).1⟩, hvalue, fun hc => (hproblems hc).2⟩
  · rintro ⟨a, st₁, hm, hf⟩
    have hrun := bind_run_of_value (f := f) hm.value
    refine ⟨by rw [hrun]; exact hf.value, fun hc => ?_⟩
    rw [hrun, hm.problems hc, hf.problems hc]
    rfl

theorem yields_pure {a' : α} : Yields clean (pure a) pl st a' st' ↔ a' = a ∧ st' = st := by
  constructor
  · intro h
    cases h.value
    exact ⟨rfl, rfl⟩
  · rintro ⟨rfl, rfl⟩
    exact ⟨rfl, fun _ => rfl⟩

theorem Gives.bind (h : Gives clean pl (m >>= f) b) : ∃ a, Gives clean pl m a ∧ Gives clean pl (f a) b := by
  obtain ⟨st, st', h⟩ := h
  obtain ⟨a, st₁, hm, hf⟩ := yields_bind.mp h
  exact ⟨a, hm.gives, hf.gives⟩

theorem Gives.eq_of_pure {a' : α} (h : Gives clean pl (pure a) a') : a' = a := by
  obtain ⟨st, st', h⟩ := h
  exact (yields_pure.mp h).1

theorem gives_report {span : Span} {p : Problem} {u : Unit} (h : Gives clean pl (report span p) u) : ¬clean := by
  obtain ⟨st, st', h⟩ := h
  exact fun hc => List.cons_ne_nil _ _ (h.problems hc)

theorem Gives.after (h : Gives clean pl (m >>= f) b) : ∃ a, Gives clean pl (f a) b :=
  let ⟨a, _, hf⟩ := h.bind
  ⟨a, hf⟩

end Monad

/-! ## One more access -/

/-- An access that reads, or that writes if the mode says so, with some children before a written value. -/
structure Accesses (m : Mode) (sort : AccessSort) (kids : List Expr) (c : Typed.Call) : Prop where
  sort : c.access.sort = sort
  isWrite : c.access.kind.isWrite = m.isWrite
  children : c.children = kids ++ m.values

/-- Most accesses are one of two, as the mode says. -/
theorem accesses_ite {m : Mode} {sort : AccessSort} {kids : List Expr} {c : Typed.Call} {writes reads : Typed.Access}
    (hc : c.access = if m.isWrite then writes else reads) (hwrites : writes.sort = sort ∧ writes.kind.isWrite = true)
    (hreads : reads.sort = sort ∧ reads.kind.isWrite = false) (hkids : c.children = kids ++ m.values) :
    Accesses m sort kids c := by
  cases hm : m.isWrite with
  | false =>
    rw [hm, if_neg Bool.false_ne_true] at hc
    exact ⟨by rw [hc]; exact hreads.1, by rw [hc, hm]; exact hreads.2, hkids⟩
  | true =>
    rw [hm, if_pos rfl] at hc
    exact ⟨by rw [hc]; exact hwrites.1, by rw [hc, hm]; exact hwrites.2, hkids⟩

/-- A chain with one more access. -/
def Walk.access (w : Walk) (c : Typed.Call) : Walk := w.push (.call c) c.type

/-- The types whose values have members and elements. -/
def HasMembers : Option Ty → Prop
  | some (.cls _) | some (.iface _) | some (.array _) | some (.map _ _) => True
  | _ => False

/-- What a step from a name does: it uses the call behind the name if the name is that of a function. -/
inductive NameMoves (clean : Prop) (m : Mode) (next : Option Tree.Call) (w : Walk) : Walk × Bool → Prop where
  | stops (h : ¬clean) : NameMoves clean m next w (w.fail, false)
  | enters (f : Found) : NameMoves clean m next w ({ w with stand := .static f }, false)
  | reads {c : Typed.Call} (h : Accesses m .name [] c) : NameMoves clean m next w (w.access c, false)
  | refers {c : Typed.Call} {sig : Signature} (hnext : next = none) (hsort : c.access.sort = .reference)
    (htype : c.type = some (.func sig)) (hkids : c.children = []) : NameMoves clean m next w (w.access c, false)
  | calls {c : Typed.Call} {call : Tree.Call} (hnext : next = some call) (h : c.access.sort = .function) :
    NameMoves clean m next w (w.access c, true)

/-- What a step from a member of a namespace or type does. -/
inductive StaticMoves (clean : Prop) (m : Mode) (next : Option Tree.Call) (w : Walk) : Walk × Bool → Prop where
  | name {r : Walk × Bool} (h : NameMoves clean m next w r) : StaticMoves clean m next w r
  | item (line : Nat) (n : Int) (e : EnumId) :
    StaticMoves clean m next w (w.push (.literal line (.int n) (.enumeration e)) (some (.enumeration e)), false)

/-- What a step from a member of a value of a type does. -/
inductive MemberMoves (clean : Prop) (m : Mode) (next : Option Tree.Call) (w : Walk) (t : Option Ty) :
    Walk × Bool → Prop where
  | stops (h : ¬clean) : MemberMoves clean m next w t (w.fail, false)
  | reads {c : Typed.Call} (ht : HasMembers t) (h : Accesses m .member [] c) :
    MemberMoves clean m next w t (w.access c, false)
  | calls {c : Typed.Call} {call : Tree.Call} (ht : HasMembers t) (hnext : next = some call)
    (h : c.access.sort = .method) : MemberMoves clean m next w t (w.access c, true)

variable {clean : Prop} {pl : Place} {v : Visit} {m : Mode} {span : Span} {next : Option Tree.Call} {w : Walk} {r : Walk × Bool}

theorem gives_failWith {p : Problem} {w' : Walk} (h : Gives clean pl (failWith w span p) w') : w' = w.fail ∧ ¬clean := by
  obtain ⟨u, hreport, h⟩ := h.bind
  exact ⟨h.eq_of_pure, gives_report hreport⟩

theorem gives_failWith_pair {p : Problem} {u : Bool}
    (h : Gives clean pl (failWith w span p >>= fun w => pure (w, u)) r) : r = (w.fail, u) ∧ ¬clean := by
  obtain ⟨w', hfail, h⟩ := h.bind
  obtain ⟨rfl, hbad⟩ := gives_failWith hfail
  exact ⟨h.eq_of_pure, hbad⟩

theorem gives_callFunction {line : Nat} {a : Typed.Access} {name callee : String} {sig : Signature}
    {names : List String} {c : Tree.Call} {w' : Walk} (h : Gives clean pl (callFunction v line a name callee sig names c w) w') :
    ∃ call : Typed.Call, call.access = a ∧ w' = w.access call := by
  obtain ⟨⟨children, args⟩, h⟩ := h.after
  exact ⟨_, rfl, h.eq_of_pure⟩

theorem gives_symbolStep {f : Found} (h : Gives clean pl (symbolStep v m span f next w) r) :
    NameMoves clean m next w r := by
  obtain ⟨s, h⟩ := h.after
  dsimp only at h
  split at h
  · obtain rfl := h.eq_of_pure
    exact .reads (accesses_ite rfl ⟨rfl, rfl⟩ ⟨rfl, rfl⟩ rfl)
  · split at h
    · obtain rfl := h.eq_of_pure
      exact .refers rfl rfl rfl rfl
    · next c =>
      obtain ⟨w', hcall, h⟩ := h.bind
      obtain ⟨call, hacc, rfl⟩ := gives_callFunction hcall
      obtain rfl := h.eq_of_pure
      exact .calls rfl (by rw [hacc]; rfl)
  · obtain ⟨rfl, hbad⟩ := gives_failWith_pair h
    exact .stops hbad
  · obtain ⟨rfl, hbad⟩ := gives_failWith_pair h
    exact .stops hbad
  · obtain ⟨rfl, hbad⟩ := gives_failWith_pair h
    exact .stops hbad
  · obtain rfl := h.eq_of_pure
    exact .enters f

/-! ## Members -/

/-- Push `this` or meet a problem. -/
inductive ThisMoves (clean : Prop) (w : Walk) : Walk → Prop where
  | stops (h : ¬clean) : ThisMoves clean w w.fail
  | reads {c : Typed.Call} {k : ClassId} (htype : c.type = some (.cls k)) (h : Accesses .read .name [] c) :
    ThisMoves clean w (w.access c)

theorem gives_pushThis {w' : Walk} (h : Gives clean pl (pushThis span w) w') : ThisMoves clean w w' := by
  obtain ⟨c, h⟩ := h.after
  obtain ⟨x, h⟩ := h.after
  split at h
  · obtain rfl := h.eq_of_pure
    exact .reads rfl ⟨rfl, rfl, rfl⟩
  · obtain ⟨rfl, hbad⟩ := gives_failWith h
    exact .stops hbad

theorem hasMembers_of_memberOf? {s : Store} {t : Option Ty} {name : String} {x : Member}
    (h : memberOf? s t name = some x) : HasMembers t := by
  unfold memberOf? at h
  dsimp only at h
  split at h
  · exact True.intro
  · exact True.intro
  · exact True.intro
  · exact True.intro
  · cases h

theorem sort_methodAccess (f : FuncId) (x : Func) (viaBase : Bool) : (methodAccess f x viaBase).sort = .method := by
  unfold methodAccess
  split
  · rfl
  · split <;> rfl

theorem gives_valueMember {name : String} {t : Option Ty} {viaBase : Bool}
    (h : Gives clean pl (valueMember v m span name next t viaBase w) r) : MemberMoves clean m next w t r := by
  obtain ⟨s, h⟩ := h.after
  dsimp only at h
  cases hmember : memberOf? s t name with
  | none =>
    rw [hmember] at h
    obtain ⟨rfl, hbad⟩ := gives_failWith_pair h
    exact .stops hbad
  | some x =>
    have ht := hasMembers_of_memberOf? hmember
    have hcall : ∀ {a : Typed.Access} {x : Func} {c : Tree.Call}, next = some c → a.sort = .method →
        Gives clean pl (callFunction v span.start.line a name name (x.sig.getD default) x.params c w >>= fun w =>
          pure (w, true)) r →
        MemberMoves clean m next w t r := by
      intro a x c hnext ha h
      obtain ⟨w', hfunction, h⟩ := h.bind
      obtain ⟨call, hacc, rfl⟩ := gives_callFunction hfunction
      obtain rfl := h.eq_of_pure
      exact .calls ht hnext (hacc ▸ ha)
    rw [hmember] at h
    rcases x with f | f | x | _
    · dsimp only at h
      split at h
      · obtain ⟨rfl, hbad⟩ := gives_failWith_pair h
        exact .stops hbad
      · obtain rfl := h.eq_of_pure
        exact .reads ht (accesses_ite rfl ⟨rfl, rfl⟩ ⟨rfl, rfl⟩ rfl)
    · dsimp only at h
      split at h
      · obtain ⟨rfl, hbad⟩ := gives_failWith_pair h
        exact .stops hbad
      · exact hcall rfl (sort_methodAccess _ _ _) h
    · cases x with
      | property x =>
        dsimp only at h
        split at h
        · obtain ⟨rfl, hbad⟩ := gives_failWith_pair h
          exact .stops hbad
        · next hm =>
          obtain rfl := h.eq_of_pure
          exact .reads ht ⟨rfl, (Bool.eq_false_of_not_eq_true hm).symm, by cases m <;> simp_all [Mode.values, Mode.isWrite]⟩
      | method x =>
        dsimp only at h
        split at h
        · obtain ⟨rfl, hbad⟩ := gives_failWith_pair h
          exact .stops hbad
        · exact hcall rfl rfl h
    · obtain ⟨rfl, hbad⟩ := gives_failWith_pair h
      exact .stops hbad

theorem gives_staticMember {name : String} {f : Found} (h : Gives clean pl (staticMember v m span name next f w) r) :
    StaticMoves clean m next w r := by
  obtain ⟨s, h⟩ := h.after
  split at h
  · split at h
    · obtain ⟨rfl, hbad⟩ := gives_failWith_pair h
      exact .name (.stops hbad)
    · exact .name (gives_symbolStep h)
  · split at h
    · dsimp only at h
      split at h
      · obtain rfl := h.eq_of_pure
        exact .item _ _ _
      · obtain ⟨rfl, hbad⟩ := gives_failWith_pair h
        exact .name (.stops hbad)
    · obtain ⟨rfl, hbad⟩ := gives_failWith_pair h
      exact .name (.stops hbad)
    · obtain ⟨rfl, hbad⟩ := gives_failWith_pair h
      exact .name (.stops hbad)

/-- What a step from a member does, wherever the chain stands. -/
inductive StepMoves (clean : Prop) (m : Mode) (next : Option Tree.Call) (w : Walk) (r : Walk × Bool) : Prop where
  | static (f : Found) (hw : w.stand = .static f) (h : StaticMoves clean m next w r)
  | value (t : Option Ty) (viaBase : Bool) (hw : w.stand = .value t viaBase) (h : MemberMoves clean m next w t r)
  | failed (hw : w.stand = .failed) (h : r = (w, false))

theorem gives_memberStep {name : String} (h : Gives clean pl (memberStep v m span name next w) r) :
    StepMoves clean m next w r := by
  unfold memberStep at h
  split at h
  · next f hw => exact .static f hw (gives_staticMember h)
  · next t viaBase hw => exact .value t viaBase hw (gives_valueMember h)
  · next hw => exact .failed hw h.eq_of_pure

/-! ## Indexes and calls -/

/-- What a step from an index does. -/
inductive IndexMoves (clean : Prop) (pl : Place) (v : Visit) (m : Mode) (x : Tree.Expr) (w : Walk) : Walk → Prop where
  | stops (h : ¬clean) : IndexMoves clean pl v m x w w.fail
  | reads {c : Typed.Call} {i : Expr} {e t t' : Option Ty} {viaBase : Bool} (hw : w.stand = .value t viaBase)
    (ht : HasMembers t) (hx : Gives clean pl (v.expr x e) (i, t')) (h : Accesses m .index [i] c) :
    IndexMoves clean pl v m x w (w.access c)

/-- What a step from a call does. -/
inductive CallMoves (clean : Prop) (w : Walk) : Walk → Prop where
  | stops (h : ¬clean) : CallMoves clean w w.fail
  | calls {c : Typed.Call} {sig : Signature} {viaBase : Bool} (hw : w.stand = .value (some (.func sig)) viaBase)
    (h : c.access.sort = .pointer) : CallMoves clean w (w.access c)

theorem isFailed_iff : w.isFailed = true ↔ w.stand = .failed := by
  unfold Walk.isFailed
  split <;> simp_all

theorem gives_indexStep {x : Tree.Expr} {w' : Walk} (hw : w.isFailed = false)
    (h : Gives clean pl (indexStep v m span x w) w') : IndexMoves clean pl v m x w w' := by
  unfold indexStep at h
  dsimp only at h
  split at h
  · next hf => simp [isFailed_iff.mpr hf] at hw
  · obtain ⟨s, h⟩ := h.after
    obtain ⟨rfl, hbad⟩ := gives_failWith h
    exact .stops hbad
  · next elem viaBase hstand =>
    obtain ⟨⟨i, t⟩, hx, h⟩ := h.bind
    have hpush : Gives clean pl (pure (w.push (access span.start.line (if m.isWrite then .arraySet else .arrayGet) "" (some elem)
        (i :: m.values)) (some elem))) w' := by
      split at h
      · split at h
        · obtain ⟨name, h⟩ := h.after
          obtain ⟨-, h⟩ := h.after
          exact h
        · exact h
      · exact h
    obtain rfl := hpush.eq_of_pure
    exact .reads hstand True.intro hx (accesses_ite rfl ⟨rfl, rfl⟩ ⟨rfl, rfl⟩ rfl)
  · next key value viaBase hstand =>
    obtain ⟨⟨k, t⟩, hx, h⟩ := h.bind
    obtain ⟨-, h⟩ := h.after
    obtain rfl := h.eq_of_pure
    exact .reads hstand True.intro hx (accesses_ite rfl ⟨rfl, rfl⟩ ⟨rfl, rfl⟩ rfl)
  · obtain ⟨s, h⟩ := h.after
    obtain ⟨rfl, hbad⟩ := gives_failWith h
    exact .stops hbad

theorem gives_callStep {c : Tree.Call} {w' : Walk} (hw : w.isFailed = false) (h : Gives clean pl (callStep v c w) w') :
    CallMoves clean w w' := by
  unfold callStep at h
  split at h
  · next hf => simp [isFailed_iff.mpr hf] at hw
  · obtain ⟨s, h⟩ := h.after
    obtain ⟨rfl, hbad⟩ := gives_failWith h
    exact .stops hbad
  · next sig viaBase hstand =>
    obtain ⟨call, hacc, rfl⟩ := gives_callFunction h
    exact .calls hstand (by rw [hacc]; rfl)
  · obtain ⟨s, h⟩ := h.after
    obtain ⟨rfl, hbad⟩ := gives_failWith h
    exact .stops hbad

/-! ## Roots -/

/-- What a chain that starts with a name does with it: the name is that of a variable or a symbol, or `this` stands
unwritten in front of it. -/
inductive RootNameMoves (clean : Prop) (m : Mode) (next : Option Tree.Call) (w : Walk) (r : Walk × Bool) : Prop where
  | name (h : NameMoves clean m next w r)
  | implicit {c : Typed.Call} {k : ClassId} (htype : c.type = some (.cls k)) (hc : Accesses .read .name [] c)
    (h : MemberMoves clean m next (w.access c) c.type r)

theorem gives_nameStep {name : String} (h : Gives clean pl (nameStep v m span name next w) r) :
    RootNameMoves clean m next w r := by
  obtain ⟨x, h⟩ := h.after
  split at h
  · obtain rfl := h.eq_of_pure
    exact .name (.reads (accesses_ite rfl ⟨rfl, rfl⟩ ⟨rfl, rfl⟩ rfl))
  · obtain ⟨s, h⟩ := h.after
    obtain ⟨c, h⟩ := h.after
    have hmember : Gives clean pl (pushThis span w >>= fun w => memberStep v m span name next w) r →
        RootNameMoves clean m next w r := by
      intro h
      obtain ⟨w₁, hthis, h⟩ := h.bind
      cases gives_pushThis hthis with
      | stops hbad =>
        cases gives_memberStep h with
        | static f hstand => cases hstand
        | value t viaBase hstand => cases hstand
        | failed hstand h =>
          subst h
          exact .name (.stops hbad)
      | reads htype hc =>
        cases gives_memberStep h with
        | static f hstand => cases hstand
        | value t viaBase hstand h =>
          cases hstand
          exact .implicit htype hc h
        | failed hstand => cases hstand
    have hsymbol : ∀ {k : Option Found → Analysis (Walk × Bool)},
        k none = (failWith w span (.unresolved name) >>= fun w => pure (w, false)) →
        (∀ f, k (some f) = symbolStep v m span f next w) →
        Gives clean pl (lookup name >>= k) r → RootNameMoves clean m next w r := by
      intro k hnone hsome h
      obtain ⟨f?, h⟩ := h.after
      cases f? with
      | none =>
        rw [hnone] at h
        obtain ⟨rfl, hbad⟩ := gives_failWith_pair h
        exact .name (.stops hbad)
      | some f =>
        rw [hsome] at h
        exact .name (gives_symbolStep h)
    cases c with
    | none => exact hsymbol rfl (fun _ => rfl) h
    | some c =>
      cases hfound : (s.classMember? c name).isSome with
      | false =>
        dsimp only at h
        rw [hfound] at h
        exact hsymbol rfl (fun _ => rfl) h
      | true =>
        dsimp only at h
        rw [hfound] at h
        exact hmember h

/-- What a chain that starts with `base` does: `this` becomes an instance of the superclass. -/
inductive BaseMoves (clean : Prop) (w : Walk) : Walk → Prop where
  | stops (h : ¬clean) : BaseMoves clean w w.fail
  | casts {c : Typed.Call} {line : Nat} {t : Option Ty} (hc : Accesses .read .name [] c) :
    BaseMoves clean w { links := w.links ++ [Expr.cast line .explicit t (.call c)], stand := .value t true }

theorem gives_baseStep {items : List Tree.Item} {w' : Walk}
    (h : Gives clean pl (baseStep span items w) w') : BaseMoves clean w w' := by
  obtain ⟨s, h⟩ := h.after
  obtain ⟨c, h⟩ := h.after
  split at h
  · obtain ⟨rfl, hbad⟩ := gives_failWith h
    exact .stops hbad
  · split at h
    · obtain ⟨rfl, hbad⟩ := gives_failWith h
      exact .stops hbad
    · obtain ⟨w₁, hthis, h⟩ := h.bind
      cases gives_pushThis hthis with
      | stops hbad =>
        obtain rfl := h.eq_of_pure
        exact .stops hbad
      | @reads c k htype hc =>
        have hlast : (w.access c).links.getLast? = some (.call c) := by simp [Walk.access, Walk.push]
        have hinit : (w.access c).links.dropLast = w.links := by simp [Walk.access, Walk.push]
        rw [hlast, hinit] at h
        obtain rfl := h.eq_of_pure
        exact .casts hc
    · obtain ⟨rfl, hbad⟩ := gives_failWith h
      exact .stops hbad

end Analysis

end Weft
