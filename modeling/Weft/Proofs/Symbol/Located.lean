import Weft.Proofs.Symbol.Collisions
import Weft.Proofs.Symbol.Growth
import Weft.Proofs.Symbol.Members

/-!
# Functions and their qualified names

Names lead from a namespace, a class or an interface to what it declares, one scope after the other, so they lead to at most
one function. Where functions are declared under names without points, and each where its qualified name says, no two of
them have one qualified name. Tables only ever get further entries, so this is never lost.
-/

namespace Weft

/-- What a function is known by, and whether it is native. -/
def Func.title (f : Func) : String × String × String × Bool := (f.path, f.name, f.module, f.native)

theorem Func.title_eq {f g : Func} (h : f.title = g.title) :
    f.fullName = g.fullName ∧ f.module = g.module ∧ f.native = g.native := by
  simp only [title, Prod.mk.injEq] at h
  obtain ⟨hpath, hname, hmodule, hnative⟩ := h
  exact ⟨by rw [fullName, fullName, hpath, hname], hmodule, hnative⟩

namespace Store

/-- What a namespace, a class or an interface declares. -/
def membersOf (s : Store) : Sym → Table
  | .space n => (s.space n).members
  | .cls c => (s.cls c).members
  | .iface i => (s.iface i).members
  | _ => .empty

/-- What names lead to from a symbol, one scope after the other. -/
def locate? (s : Store) (a : Sym) (names : List String) : Option Sym :=
  names.foldlM (fun b name => (s.membersOf b).get? name) a

/-- A function is declared below a symbol where its qualified name says: the names that come after those of the symbol lead
to it. -/
def Spelled (s : Store) (a : Sym) (path : List String) (f : FuncId) : Prop :=
  ∃ names, (∀ x ∈ names, Dotless x) ∧ s.locate? a names = some (.func f) ∧ (s.func f).fullName = pathName (path ++ names)

/-- Namespaces have the paths that their names say. -/
def Pathed (s : Store) : Prop :=
  ∀ {n name c}, (s.space n).members.get? name = some (.space c) →
    c.index < s.spaces.size ∧ (s.space c).path = qualified (s.space n).path name

/-- The second store has what the first one has, under the same names. -/
structure Continues (s s' : Store) : Prop where
  below : s.Below s'
  members : ∀ {a name b}, (s.membersOf a).get? name = some b → (s'.membersOf a).get? name = some b
  space : ∀ n : NamespaceId, n.index < s.spaces.size →
    (s'.space n).name = (s.space n).name ∧ (s'.space n).path = (s.space n).path
  cls : ∀ c : ClassId, c.index < s.classes.size → (s'.cls c).name = (s.cls c).name
  iface : ∀ i : InterfaceId, i.index < s.interfaces.size → (s'.iface i).name = (s.iface i).name
  title : ∀ f : FuncId, f.index < s.funcs.size → (s'.func f).title = (s.func f).title
  pathed : s.Pathed → s'.Pathed

variable {s s' s'' : Store} {a b : Sym} {n c : NamespaceId} {f g : FuncId} {name module : String} {names names' path : List String}
  {named named' : Prop}

/-! ## Names that lead to functions -/

theorem locate?_cons : s.locate? a (name :: names) = ((s.membersOf a).get? name).bind fun b => s.locate? b names := rfl

/-- Functions that are declared where their qualified names say have different ones. -/
theorem Spelled.eq (hf : s.Spelled a [] f) (hg : s.Spelled a [] g) (h : (s.func f).fullName = (s.func g).fullName) :
    f = g := by
  obtain ⟨names, hnames, hlead, hfull⟩ := hf
  obtain ⟨names', hnames', hlead', hfull'⟩ := hg
  rw [hfull, hfull', List.nil_append, List.nil_append, pathName_eq_dotted hnames, pathName_eq_dotted hnames'] at h
  rw [dotted_inj hnames hnames' h, hlead'] at hlead
  cases hlead
  rfl

theorem locate?_append : s.locate? a (names ++ names') = (s.locate? a names).bind fun b => s.locate? b names' :=
  List.foldlM_append

/-- What is declared in a scope that names lead to is below the one that they start from. -/
theorem Spelled.under (h : s.Spelled b (path ++ names) f) (hb : s.locate? a names = some b)
    (hnames : ∀ x ∈ names, Dotless x) : s.Spelled a path f := by
  obtain ⟨names', hnames', hlead, hfull⟩ := h
  refine ⟨names ++ names', List.forall_mem_append.mpr ⟨hnames, hnames'⟩, ?_, ?_⟩
  · rw [locate?_append, hb]
    exact hlead
  · rw [hfull, List.append_assoc]

theorem pathName_concat : pathName (path ++ [name]) = qualified (pathName path) name := by
  rw [pathName, List.foldl_append]
  rfl

/-! ## Stores with more symbols -/

namespace Continues

theorem refl (s : Store) : s.Continues s :=
  ⟨.refl s, id, fun _ _ => ⟨rfl, rfl⟩, fun _ _ => rfl, fun _ _ => rfl, fun _ _ => rfl, id⟩

theorem trans (h : s.Continues s') (h' : s'.Continues s'') : s.Continues s'' where
  below := h.below.trans h'.below
  members hb := h'.members (h.members hb)
  space n hn := by
    obtain ⟨hname, hpath⟩ := h'.space n (Nat.lt_of_lt_of_le hn (h.below .space))
    exact ⟨hname.trans (h.space n hn).1, hpath.trans (h.space n hn).2⟩
  cls c hc := (h'.cls c (Nat.lt_of_lt_of_le hc (h.below .cls))).trans (h.cls c hc)
  iface i hi := (h'.iface i (Nat.lt_of_lt_of_le hi (h.below .iface))).trans (h.iface i hi)
  title f hf := (h'.title f (Nat.lt_of_lt_of_le hf (h.below .func))).trans (h.title f hf)
  pathed hs := h'.pathed (h.pathed hs)

theorem locate? (h : s.Continues s') (hb : s.locate? a names = some b) : s'.locate? a names = some b := by
  induction names generalizing a with
  | nil => exact hb
  | cons name names ih =>
    rw [locate?_cons, Option.bind_eq_some_iff] at hb ⊢
    obtain ⟨d, hd, hb⟩ := hb
    exact ⟨d, h.members hd, ih hb⟩

theorem spelled (h : s.Continues s') (hf : f.index < s.funcs.size) (hs : s.Spelled a path f) : s'.Spelled a path f := by
  obtain ⟨names, hnames, hlead, hfull⟩ := hs
  exact ⟨names, hnames, h.locate? hlead, (Func.title_eq (h.title f hf)).1.trans hfull⟩

end Continues

/-! ### Added symbols -/

theorem continues_addFunc {x : Func} : s.Continues (addFunc x s).2 :=
  { Continues.refl s with
    below := Analysis.outlineMoves_below.addFunc x s
    title := fun f hf => by rw [func_addFunc, if_neg (Nat.ne_of_lt hf)] }

theorem continues_addGlobal {x : Global} : s.Continues (addGlobal x s).2 :=
  { Continues.refl s with below := Analysis.outlineMoves_below.addGlobal x s }

theorem continues_addField {x : Field} : s.Continues (addField x s).2 :=
  { Continues.refl s with below := Analysis.outlineMoves_below.addField x s }

theorem continues_addEnum {x : Enum} : s.Continues (addEnum x s).2 :=
  { Continues.refl s with below := Analysis.outlineMoves_below.addEnum x s }

theorem continues_addClass {x : Class} (hx : x.super = none) : s.Continues (addClass x s).2 :=
  { Continues.refl s with
    below := Analysis.outlineMoves_below.addClass x hx s
    cls := fun c hc => by rw [cls_addClass, if_neg (Nat.ne_of_lt hc)]
    members := fun {a m b} hb => by
      cases a with
      | cls d =>
        rw [membersOf, cls_addClass, if_neg]
        · exact hb
        · intro hd
          rw [membersOf, cls, Array.getElem?_eq_none hd.ge] at hb
          cases hb
      | _ => exact hb }

theorem continues_addInterface {x : Interface} (hx : x.bases = []) : s.Continues (addInterface x s).2 :=
  { Continues.refl s with
    below := Analysis.outlineMoves_below.addInterface x hx s
    iface := fun i hi => by rw [iface_addInterface, if_neg (Nat.ne_of_lt hi)]
    members := fun {a m b} hb => by
      cases a with
      | iface i =>
        rw [membersOf, iface_addInterface, if_neg]
        · exact hb
        · intro hi
          rw [membersOf, iface, Array.getElem?_eq_none hi.ge] at hb
          cases hb
      | _ => exact hb }

theorem space_of_size_le (h : s.spaces.size ≤ n.index) : s.space n = default := by
  rw [space, Array.getElem?_eq_none h]
  rfl

/-- A new namespace has its name and its path. -/
theorem continues_newNamespace (s : Store) (name path module : String) : s.Continues (newNamespace name path module s).2 ∧
    s.spaces.size < (newNamespace name path module s).2.spaces.size ∧
    ((newNamespace name path module s).2.space ⟨s.spaces.size⟩).name = name ∧
    ((newNamespace name path module s).2.space ⟨s.spaces.size⟩).path = path := by
  have hold : ∀ {m : NamespaceId} {x b}, (s.space m).members.get? x = some b → m.index < s.spaces.size := by
    intro m x b hb
    by_contra hm
    rw [space_of_size_le (Nat.le_of_not_lt hm)] at hb
    cases hb
  have hspace : ∀ {m : NamespaceId}, m.index < s.spaces.size → (newNamespace name path module s).2.space m = s.space m :=
    fun hm => by rw [newNamespace, space_addSpace, if_neg (Nat.ne_of_lt hm)]
  have hbelow : s.Below (newNamespace name path module s).2 := Analysis.outlineMoves_below.addSpace _ s
  have hnew : (newNamespace name path module s).2.space ⟨s.spaces.size⟩ = { name, path, module, members := .empty, links := [] } := by
    rw [newNamespace, space_addSpace, if_pos rfl]
  have hroom : (newNamespace name path module s).2.spaces.size = s.spaces.size + 1 := Array.size_push _
  refine ⟨{ Continues.refl s with
    below := hbelow
    space := fun m hm => by rw [hspace hm]; exact ⟨rfl, rfl⟩
    members := fun {a m b} hb => ?_
    pathed := fun hs n x c hc => ?_ }, by omega, by rw [hnew], by rw [hnew]⟩
  · cases a with
    | space m =>
      rw [membersOf, hspace (hold hb)]
      exact hb
    | _ => exact hb
  · by_cases hn : n.index < s.spaces.size
    · rw [hspace hn] at hc
      obtain ⟨hlt, hpath⟩ := hs hc
      exact ⟨Nat.lt_of_lt_of_le hlt (hbelow .space), by rw [hspace hlt, hspace hn, hpath]⟩
    · rw [newNamespace, space_addSpace] at hc
      split at hc
      · cases hc
      · rw [space_of_size_le (Nat.le_of_not_lt hn)] at hc
        cases hc

/-! ### Changed symbols -/

theorem continues_updateFunc {change : Func → Func} (h : ∀ x, (change x).title = x.title) :
    s.Continues (updateFunc f change s).2 :=
  { Continues.refl s with
    below := Analysis.outlineMoves_below.updateFunc f change s
    title := fun g _ => by
      rw [func_updateFunc]
      split
      · exact h _
      · rfl }

theorem continues_updateField {y : FieldId} {change : Field → Field} : s.Continues (updateField y change s).2 :=
  { Continues.refl s with below := Analysis.outlineMoves_below.updateField y change s }

theorem continues_updateGlobal {y : GlobalId} {change : Global → Global} : s.Continues (updateGlobal y change s).2 :=
  { Continues.refl s with below := Analysis.outlineMoves_below.updateGlobal y change s }

theorem continues_updateEnum {e : EnumId} {change : Enum → Enum} : s.Continues (updateEnum e change s).2 :=
  { Continues.refl s with below := Analysis.outlineMoves_below.updateEnum e change s }

theorem continues_updateClass {c : ClassId} {change : Class → Class}
    (hkeep : ∀ x, (change x).super = x.super ∧ (change x).name = x.name)
    (h : ∀ {name b}, (s.cls c).members.get? name = some b → (change (s.cls c)).members.get? name = some b) :
    s.Continues (updateClass c change s).2 :=
  { Continues.refl s with
    below := Analysis.outlineMoves_below.updateClass c change (fun x => (hkeep x).1) s
    cls := fun d _ => by
      rw [cls_updateClass]
      split
      · exact (hkeep _).2
      · rfl
    members := fun {a m b} hb => by
      cases a with
      | cls d =>
        rw [membersOf, cls_updateClass]
        split
        · next hd =>
          obtain ⟨rfl, -⟩ := hd
          exact h hb
        · exact hb
      | _ => exact hb }

theorem continues_updateInterface {i : InterfaceId} {change : Interface → Interface}
    (hkeep : ∀ x, (change x).bases = x.bases ∧ (change x).name = x.name)
    (h : ∀ {name b}, (s.iface i).members.get? name = some b → (change (s.iface i)).members.get? name = some b) :
    s.Continues (updateInterface i change s).2 :=
  { Continues.refl s with
    below := Analysis.outlineMoves_below.updateInterface i change (fun x => (hkeep x).1) s
    iface := fun j _ => by
      rw [iface_updateInterface]
      split
      · exact (hkeep _).2
      · rfl
    members := fun {a m b} hb => by
      cases a with
      | iface j =>
        rw [membersOf, iface_updateInterface]
        split
        · next hj =>
          obtain ⟨rfl, -⟩ := hj
          exact h hb
        · exact hb
      | _ => exact hb }

/-- A namespace gets further members, among them only namespaces that have the paths that their names say. -/
theorem continues_updateSpace {change : Namespace → Namespace}
    (hkeep : ∀ x, (change x).name = x.name ∧ (change x).path = x.path)
    (h : ∀ {name b}, (s.space n).members.get? name = some b → (change (s.space n)).members.get? name = some b)
    (hnew : ∀ {name c}, (change (s.space n)).members.get? name = some (.space c) →
      (s.space n).members.get? name = some (.space c) ∨
        c.index < s.spaces.size ∧ (s.space c).path = qualified (s.space n).path name) :
    s.Continues (updateSpace n change s).2 := by
  have hkept : ∀ m, ((updateSpace n change s).2.space m).name = (s.space m).name ∧
      ((updateSpace n change s).2.space m).path = (s.space m).path := by
    intro m
    rw [space_updateSpace]
    split
    · exact hkeep _
    · exact ⟨rfl, rfl⟩
  have hbelow : s.Below (updateSpace n change s).2 := Analysis.outlineMoves_below.updateSpace n change s
  refine { Continues.refl s with
    below := hbelow
    space := fun m _ => hkept m
    members := fun {a m b} hb => ?_
    pathed := fun hs m x c hc => ?_ }
  · cases a with
    | space m =>
      rw [membersOf, space_updateSpace]
      split
      · next hm =>
        obtain ⟨rfl, -⟩ := hm
        exact h hb
      · exact hb
    | _ => exact hb
  · have hold : c.index < s.spaces.size ∧ (s.space c).path = qualified (s.space m).path x := by
      rw [space_updateSpace] at hc
      split at hc
      · next hm =>
        obtain ⟨rfl, -⟩ := hm
        exact (hnew hc).elim (fun hc => hs hc) id
      · exact hs hc
    exact ⟨Nat.lt_of_lt_of_le hold.1 (hbelow .space), by rw [(hkept c).2, (hkept m).2, hold.2]⟩

/-! ### Declared symbols -/

theorem get?_push_of_get? {t : Table} {x y : String} (h : t.get? x = some b) : (t.push y a).get? x = some b := by
  rw [get?_push, h, Option.some_or]

theorem get?_push_self {t : Table} (h : t.get? name = none) : (t.push name a).get? name = some a := by
  rw [get?_push, h, Option.none_or, if_pos rfl]

/-- A symbol is declared in a namespace, if its name is free there. -/
theorem define_apply (s : Store) (n : NamespaceId) (a : Sym) :
    define n a s = match (s.space n).members.define (s.nameOf a) a with
      | .ok t => (.ok (), (updateSpace n ({ · with members := t }) s).2)
      | .error e => (.error e, s) := by
  rw [define, get_bind_apply]
  cases (s.space n).members.define (s.nameOf a) a <;> rfl

/-- A symbol that is declared in a namespace is found there. A namespace has to have the path that its name says. -/
theorem continues_define {v : PUnit} (h : (define n a s).1 = .ok v) (hn : n.index < s.spaces.size)
    (ha : ∀ c, a = .space c → c.index < s.spaces.size ∧ (s.space c).path = qualified (s.space n).path (s.nameOf a)) :
    s.Continues (define n a s).2 ∧ ((define n a s).2.membersOf (.space n)).get? (s.nameOf a) = some a ∧
      (define n a s).2.funcs = s.funcs := by
  rw [define_apply] at h ⊢
  cases hdef : (s.space n).members.define (s.nameOf a) a with
  | error e =>
    rw [hdef] at h
    cases h
  | ok t =>
    obtain ⟨hfree, rfl⟩ := Table.define_ok hdef
    refine ⟨continues_updateSpace (fun _ => ⟨rfl, rfl⟩) get?_push_of_get? fun {x c} hc => ?_, ?_, rfl⟩
    · rw [get?_push, Option.or_eq_some_iff] at hc
      rcases hc with hc | ⟨-, hc⟩
      · exact .inl hc
      · split at hc
        · next hx =>
          subst hx
          exact .inr (ha c (Option.some.inj hc))
        · cases hc
    · rw [membersOf, space_updateSpace, if_pos ⟨rfl, hn⟩]
      exact get?_push_self hfree

/-- A nested namespace is found under its name, and has the path that this says. -/
theorem continues_child (h : (child n name s).1 = .ok c) (hn : n.index < s.spaces.size) (hs : s.Pathed) :
    s.Continues (child n name s).2 ∧ ((child n name s).2.membersOf (.space n)).get? name = some (.space c) ∧
      c.index < (child n name s).2.spaces.size ∧
      ((child n name s).2.space c).path = qualified (s.space n).path name ∧ (child n name s).2.funcs = s.funcs := by
  rw [child_apply] at h ⊢
  cases hget : (s.space n).members.get? name with
  | some x =>
    rw [hget] at h
    cases x with
    | space m =>
      obtain rfl := Except.ok.inj h
      exact ⟨.refl s, hget, (hs hget).1, (hs hget).2, rfl⟩
    | _ => cases h
  | none =>
    rw [hget] at h
    obtain rfl := Except.ok.inj h
    have hadded : s.Continues (addSpace (s.nested n name) s).2 := (continues_newNamespace s _ _ _).1
    have hsize : (addSpace (s.nested n name) s).2.spaces.size = s.spaces.size + 1 := Array.size_push _
    have hnew : (addSpace (s.nested n name) s).2.space ⟨s.spaces.size⟩ = s.nested n name := by
      rw [space_addSpace, if_pos rfl]
    have hold : (addSpace (s.nested n name) s).2.space n = s.space n := by
      rw [space_addSpace, if_neg (Nat.ne_of_lt hn)]
    have hroom : n.index < (addSpace (s.nested n name) s).2.spaces.size := by omega
    have hne : n ≠ ⟨s.spaces.size⟩ := fun h => absurd (congrArg NamespaceId.index h) (Nat.ne_of_lt hn)
    refine ⟨hadded.trans (continues_updateSpace (fun _ => ⟨rfl, rfl⟩) get?_push_of_get? fun {x c} hc => ?_), ?_, ?_, ?_, rfl⟩
    · rw [get?_push, Option.or_eq_some_iff] at hc
      rcases hc with hc | ⟨-, hc⟩
      · exact .inl hc
      · split at hc
        · next hx =>
          subst hx
          cases hc
          exact .inr ⟨by simp only [hsize]; omega, by rw [hnew, hold]; rfl⟩
        · cases hc
    · rw [membersOf, space_updateSpace, if_pos ⟨rfl, hroom⟩, hold]
      exact get?_push_self hget
    · change s.spaces.size < ((addSpace (s.nested n name) s).2.spaces.modify _ _).size
      rw [Array.size_modify, hsize]
      omega
    · rw [space_updateSpace, if_neg fun h => hne h.1, hnew]
      rfl

/-- A new class that is declared in a namespace is found there under its name. -/
theorem continues_defineClass {x : Class} {v : PUnit} (h : (define n (.cls ⟨s.classes.size⟩) (addClass x s).2).1 = .ok v)
    (hn : n.index < s.spaces.size) (hx : x.super = none) :
    s.Continues (define n (.cls ⟨s.classes.size⟩) (addClass x s).2).2 ∧
      (define n (.cls ⟨s.classes.size⟩) (addClass x s).2).2.funcs = s.funcs ∧
      s.classes.size < (define n (.cls ⟨s.classes.size⟩) (addClass x s).2).2.classes.size ∧
      ((define n (.cls ⟨s.classes.size⟩) (addClass x s).2).2.membersOf (.space n)).get? x.name = some (.cls ⟨s.classes.size⟩) := by
  obtain ⟨hcont, hget, hfuncs⟩ := continues_define h hn nofun
  have hself : (addClass x s).2.cls ⟨s.classes.size⟩ = x := by rw [cls_addClass, if_pos rfl]
  have hname : (addClass x s).2.nameOf (.cls ⟨s.classes.size⟩) = x.name := congrArg Class.name hself
  have hroom : s.classes.size < (addClass x s).2.classes.size := Nat.lt_of_lt_of_eq (Nat.lt_succ_self _) (Array.size_push _).symm
  exact ⟨(continues_addClass hx).trans hcont, hfuncs, Nat.lt_of_lt_of_le hroom (hcont.below .cls), hname ▸ hget⟩

/-- A new interface that is declared in a namespace is found there under its name. -/
theorem continues_defineInterface {x : Interface} {v : PUnit}
    (h : (define n (.iface ⟨s.interfaces.size⟩) (addInterface x s).2).1 = .ok v) (hn : n.index < s.spaces.size)
    (hx : x.bases = []) :
    s.Continues (define n (.iface ⟨s.interfaces.size⟩) (addInterface x s).2).2 ∧
      (define n (.iface ⟨s.interfaces.size⟩) (addInterface x s).2).2.funcs = s.funcs ∧
      s.interfaces.size < (define n (.iface ⟨s.interfaces.size⟩) (addInterface x s).2).2.interfaces.size ∧
      ((define n (.iface ⟨s.interfaces.size⟩) (addInterface x s).2).2.membersOf (.space n)).get? x.name =
        some (.iface ⟨s.interfaces.size⟩) := by
  obtain ⟨hcont, hget, hfuncs⟩ := continues_define h hn nofun
  have hself : (addInterface x s).2.iface ⟨s.interfaces.size⟩ = x := by rw [iface_addInterface, if_pos rfl]
  have hname : (addInterface x s).2.nameOf (.iface ⟨s.interfaces.size⟩) = x.name := congrArg Interface.name hself
  have hroom : s.interfaces.size < (addInterface x s).2.interfaces.size :=
    Nat.lt_of_lt_of_eq (Nat.lt_succ_self _) (Array.size_push _).symm
  exact ⟨(continues_addInterface hx).trans hcont, hfuncs, Nat.lt_of_lt_of_le hroom (hcont.below .iface), hname ▸ hget⟩

/-- A function that is declared in a class is found there. -/
theorem continues_defineMember {c : ClassId} {v : PUnit} (h : (defineMember c a s).1 = .ok v) (hc : c.index < s.classes.size) :
    s.Continues (defineMember c a s).2 ∧ (defineMember c a s).2.funcs.size = s.funcs.size ∧
      ∀ f, a = .func f → ((defineMember c a s).2.membersOf (.cls c)).get? (s.func f).name = some (.func f) := by
  have hclaimed : s.Continues (s.claimed c a) ∧ (s.claimed c a).funcs.size = s.funcs.size ∧
      (s.claimed c a).classes.size = s.classes.size ∧
      ∀ f, a = .func f → (s.claimed c a).nameOf a = (s.func f).name := by
    have hclass : ∀ t : Store, t.Continues (updateClass c ({ · with laidOut := false }) t).2 :=
      fun t => continues_updateClass (fun _ => ⟨rfl, rfl⟩) id
    cases a with
    | func f =>
      refine ⟨(continues_updateFunc (by intro x; rfl)).trans (hclass _), Array.size_modify .., Array.size_modify .., ?_⟩
      rintro _ ⟨⟩
      change ((updateFunc f ({ · with owner := some (.cls c) }) s).2.func f).name = _
      rw [func_updateFunc]
      split <;> rfl
    | field y => exact ⟨continues_updateField.trans (hclass _), rfl, Array.size_modify .., nofun⟩
    | _ => exact ⟨hclass s, rfl, Array.size_modify .., nofun⟩
  obtain ⟨hext, hfuncs, hclasses, hname⟩ := hclaimed
  rw [defineMember_apply] at h ⊢
  cases hdef : ((s.claimed c a).cls c).members.define ((s.claimed c a).nameOf a) a with
  | error e =>
    rw [hdef] at h
    cases h
  | ok t =>
    obtain ⟨hfree, rfl⟩ := Table.define_ok hdef
    refine ⟨hext.trans (continues_updateClass (fun _ => ⟨rfl, rfl⟩) get?_push_of_get?), hfuncs, fun f hf => ?_⟩
    rw [membersOf, cls_updateClass, if_pos ⟨rfl, hclasses ▸ hc⟩, ← hname f hf, hf]
    exact get?_push_self (hf ▸ hfree)

/-- A function that is declared in an interface is found there. -/
theorem continues_defineSignature {i : InterfaceId} {v : PUnit} (h : (defineSignature i f s).1 = .ok v)
    (hi : i.index < s.interfaces.size) :
    s.Continues (defineSignature i f s).2 ∧ (defineSignature i f s).2.funcs.size = s.funcs.size ∧
      ((defineSignature i f s).2.membersOf (.iface i)).get? (s.func f).name = some (.func f) := by
  have hext : s.Continues (s.signing i f) := continues_updateFunc (by intro x; rfl)
  have hfuncs : (s.signing i f).funcs.size = s.funcs.size := Array.size_modify ..
  have hname : ((s.signing i f).func f).name = (s.func f).name := by
    rw [signing, func_updateFunc]
    split <;> rfl
  rw [defineSignature_apply] at h ⊢
  cases hdef : ((s.signing i f).iface i).members.define ((s.signing i f).func f).name (.func f) with
  | error e =>
    rw [hdef] at h
    cases h
  | ok t =>
    obtain ⟨hfree, rfl⟩ := Table.define_ok hdef
    refine ⟨hext.trans (continues_updateInterface (fun _ => ⟨rfl, rfl⟩) get?_push_of_get?), hfuncs, ?_⟩
    rw [membersOf, iface_updateInterface, if_pos ⟨rfl, hi⟩, ← hname]
    exact get?_push_self hfree

/-- An item of an enumeration is no function. -/
theorem continues_addItem {e : EnumId} {value : Int} :
    s.Continues (addItem e name value s).2 ∧ (addItem e name value s).2.funcs = s.funcs := by
  rw [addItem, get_bind_apply]
  cases (s.enumeration e).items.define name (.item { name, value, owner := e }) with
  | ok t => exact ⟨continues_updateEnum, rfl⟩
  | error err => exact ⟨.refl s, rfl⟩

/-- A new function is declared in a namespace, a class or an interface, and found there under its name. -/
structure Enters (s : Store) (a : Sym) (x : Func) (s' : Store) : Prop where
  continues : (addFunc x s).2.Continues s'
  size : s'.funcs.size = (addFunc x s).2.funcs.size
  found : (s'.membersOf a).get? x.name = some (.func ⟨s.funcs.size⟩)

section Enters

variable {x : Func} {v : PUnit}

theorem func_addFunc_self : (addFunc x s).2.func ⟨s.funcs.size⟩ = x := by rw [func_addFunc, if_pos rfl]

theorem enters_define (h : (define n (.func ⟨s.funcs.size⟩) (addFunc x s).2).1 = .ok v) (hn : n.index < s.spaces.size) :
    s.Enters (.space n) x (define n (.func ⟨s.funcs.size⟩) (addFunc x s).2).2 := by
  obtain ⟨hcont, hget, hfuncs⟩ := continues_define h hn nofun
  have hname : (addFunc x s).2.nameOf (.func ⟨s.funcs.size⟩) = x.name := congrArg Func.name func_addFunc_self
  exact ⟨hcont, congrArg Array.size hfuncs, hname ▸ hget⟩

theorem enters_defineMember {c : ClassId} (h : (defineMember c (.func ⟨s.funcs.size⟩) (addFunc x s).2).1 = .ok v)
    (hc : c.index < s.classes.size) : s.Enters (.cls c) x (defineMember c (.func ⟨s.funcs.size⟩) (addFunc x s).2).2 := by
  obtain ⟨hcont, hsize, hget⟩ := continues_defineMember h hc
  replace hget := hget _ rfl
  rw [func_addFunc_self] at hget
  exact ⟨hcont, hsize, hget⟩

theorem enters_defineSignature {i : InterfaceId} (h : (defineSignature i ⟨s.funcs.size⟩ (addFunc x s).2).1 = .ok v)
    (hi : i.index < s.interfaces.size) : s.Enters (.iface i) x (defineSignature i ⟨s.funcs.size⟩ (addFunc x s).2).2 := by
  obtain ⟨hcont, hsize, hget⟩ := continues_defineSignature h hi
  rw [func_addFunc_self] at hget
  exact ⟨hcont, hsize, hget⟩

end Enters

/-! ## Declarations -/

/-- Further symbols are declared for a module. The functions among them are below a symbol where their qualified names say, if
the names are such. -/
structure Declares (named : Prop) (module : String) (a : Sym) (path : List String) (s s' : Store) : Prop
    extends s.Continues s' where
  new : ∀ f : FuncId, s.funcs.size ≤ f.index → f.index < s'.funcs.size →
    (s'.func f).module = module ∧ (s'.func f).native = false ∧ (named → s'.Spelled a path f)

theorem Continues.declares (h : s.Continues s') (hsize : s'.funcs.size = s.funcs.size) : Declares named module a path s s' :=
  ⟨h, fun f hf hf' => absurd hf (by omega)⟩

namespace Declares

theorem mono (h : Declares named module a path s s') (hnamed : named' → named) : Declares named' module a path s s' :=
  ⟨h.toContinues, fun f hf hf' => (h.new f hf hf').imp_right fun h => h.imp_right fun h hn => h (hnamed hn)⟩

theorem trans (h : Declares named module a path s s') (h' : Declares named module a path s' s'') :
    Declares named module a path s s'' := by
  refine ⟨h.toContinues.trans h'.toContinues, fun f hf hf' => ?_⟩
  by_cases hlt : f.index < s'.funcs.size
  · obtain ⟨hmodule, hnative, hspelled⟩ := h.new f hf hlt
    obtain ⟨-, hmodule', hnative'⟩ := Func.title_eq (h'.title f hlt)
    exact ⟨hmodule'.trans hmodule, hnative'.trans hnative, fun hn => h'.toContinues.spelled hlt (hspelled hn)⟩
  · exact h'.new f (Nat.le_of_not_lt hlt) hf'

/-- What is declared in a scope is declared below the one that the scope is found from. -/
theorem within (h : Declares named module b (path ++ names) s s') (hb : s'.locate? a names = some b)
    (hnames : named → ∀ x ∈ names, Dotless x) : Declares named module a path s s' := by
  refine ⟨h.toContinues, fun f hf hf' => ?_⟩
  obtain ⟨hmodule, hnative, hspelled⟩ := h.new f hf hf'
  exact ⟨hmodule, hnative, fun hn => (hspelled hn).under hb (hnames hn)⟩

theorem under (h : Declares named module b (path ++ [name]) s s') (hb : (s'.membersOf a).get? name = some b)
    (hname : named → Dotless name) : Declares named module a path s s' := by
  refine h.within ?_ fun hn => by simpa using hname hn
  rw [locate?_cons, hb]
  rfl

/-- One function is declared. -/
theorem one {x : Func} (h : s.Enters a x s') (hpath : x.path = pathName path) (hmodule : x.module = module)
    (hnative : x.native = false) (hname : named → Dotless x.name) : Declares named module a path s s' := by
  refine ⟨continues_addFunc.trans h.continues, fun f hf hf' => ?_⟩
  have hroom : s.funcs.size < (addFunc x s).2.funcs.size := Nat.lt_of_lt_of_eq (Nat.lt_succ_self _) (Array.size_push _).symm
  have hlast : f.index < s.funcs.size + 1 := Nat.lt_of_lt_of_eq hf' (h.size.trans (Array.size_push _))
  obtain rfl : f = ⟨s.funcs.size⟩ := congrArg FuncId.mk (show f.index = s.funcs.size by omega)
  obtain ⟨hfull, hmod, hnat⟩ := Func.title_eq (h.continues.title ⟨s.funcs.size⟩ hroom)
  rw [func_addFunc, if_pos rfl] at hfull hmod hnat
  refine ⟨hmod.trans hmodule, hnat.trans hnative, fun hn => ⟨[x.name], by simpa using hname hn, ?_, ?_⟩⟩
  · rw [locate?_cons, h.found]
    rfl
  · rw [hfull, pathName_concat, ← hpath, Func.fullName]

end Declares

end Store

/-! ## Records -/

mutual

/-- The names in a stored declaration have no points. -/
def SymbolRecord.Named : SymbolRecord → Prop
  | ⟨_, name, _, _, _, _, _, _, _, _, _, members⟩ => Dotless name ∧ namedRecords members

/-- The names in a list of stored declarations have no points. -/
def namedRecords : List SymbolRecord → Prop
  | [] => True
  | r :: rs => r.Named ∧ namedRecords rs

end

namespace Declare

open Store (Continues Declares)

/-- A computation that declares symbols without a problem. -/
def Gives {α : Type} (m : Declare α) (d : Declaring) (x : α) (d' : Declaring) : Prop := m d = (.ok x, d')

/-- Further symbols of the module were declared. -/
structure Brings (named : Prop) (a : Sym) (path : List String) (d d' : Declaring) : Prop where
  module : d'.module.name = d.module.name
  declares : Declares named d.module.name a path d.store d'.store

section Steps

variable {α β ι : Type} {d d' d₁ d₂ : Declaring} {x : α} {named named' : Prop} {a b : Sym} {path : List String} {name : String}
  {n : NamespaceId} {r : SymbolRecord}

theorem gives_pure {y : α} : Gives (pure x) d y d' ↔ y = x ∧ d' = d := by
  change (Except.ok x, d) = (.ok y, d') ↔ _
  simp [eq_comm]

theorem gives_bind {m : Declare α} {f : α → Declare β} {y : β} :
    Gives (m >>= f) d y d' ↔ ∃ x d₁, Gives m d x d₁ ∧ Gives (f x) d₁ y d' := by
  change ExceptT.bindCont (m := StateM Declaring) f (m d).1 (m d).2 = (.ok y, d') ↔ ∃ x d₁, m d = (.ok x, d₁) ∧ f x d₁ = (.ok y, d')
  rcases m d with ⟨e | x, d₁⟩
  · refine ⟨fun h => ?_, fun ⟨_, _, h, _⟩ => nomatch (Prod.mk.inj h).1⟩
    exact nomatch (Prod.mk.inj (show (Except.error e, d₁) = (.ok y, d') from h)).1
  · refine ⟨fun h => ⟨x, d₁, rfl, h⟩, ?_⟩
    rintro ⟨_, _, ⟨⟩, h⟩
    exact h

theorem gives_get_bind {f : Declaring → Declare α} : Gives (get >>= f) d x d' ↔ Gives (f d) d x d' := Iff.rfl

theorem gives_throw {e : DeclareError} : ¬Gives (throw e) d x d' := fun h => nomatch (Prod.mk.inj h).1

theorem gives_symbols {m : Symbols α} : Gives (symbols m) d x d' ↔
    x = (m d.store).1 ∧ d' = { d with store := (m d.store).2 } := by
  change (Except.ok (m d.store).1, { d with store := (m d.store).2 }) = (.ok x, d') ↔ _
  simp [eq_comm]

theorem gives_unique {m : Symbols (Except AlreadyDefined α)} (h : Gives (unique m) d x d') :
    (m d.store).1 = .ok x ∧ d' = { d with store := (m d.store).2 } := by
  obtain ⟨result, d₁, hm, h⟩ := gives_bind.mp h
  obtain ⟨rfl, rfl⟩ := gives_symbols.mp hm
  split at h
  · next y hy =>
    obtain ⟨rfl, rfl⟩ := gives_pure.mp h
    exact ⟨hy, rfl⟩
  · exact absurd h gives_throw

theorem gives_await {p : Pending} {u : Unit} (h : Gives (await p) d u d') : d' = { d with pending := d.pending ++ [p] } :=
  (Prod.mk.inj h).2.symm

/-- What each step of a loop does to the declarations, the whole loop does. -/
theorem gives_forM {R : Declaring → Declaring → Prop} (hrefl : ∀ d, R d d) (htrans : ∀ {d d₁ d₂}, R d d₁ → R d₁ d₂ → R d d₂)
    {f : ι → Declare Unit} {ys : List ι} {u : Unit} (h : Gives (ys.forM f) d u d')
    (hf : ∀ y ∈ ys, ∀ {d₁ d₂}, R d d₁ → Gives (f y) d₁ () d₂ → R d₁ d₂) : R d d' := by
  induction ys generalizing d with
  | nil =>
    obtain ⟨-, rfl⟩ := gives_pure.mp h
    exact hrefl _
  | cons y ys ih =>
    obtain ⟨_, d₁, hy, h⟩ := gives_bind.mp h
    have hfirst : R d d₁ := hf y List.mem_cons_self (hrefl d) hy
    exact htrans hfirst (ih h fun z hz _ _ hd => hf z (List.mem_cons_of_mem _ hz) (htrans hfirst hd))

/-- Symbols were declared, but no function. -/
structure NoFunc (d d' : Declaring) : Prop where
  continues : d.store.Continues d'.store
  size : d'.store.funcs.size = d.store.funcs.size
  module : d'.module.name = d.module.name

namespace NoFunc

theorem refl (d : Declaring) : NoFunc d d := ⟨.refl _, rfl, rfl⟩

theorem trans (h : NoFunc d d₁) (h' : NoFunc d₁ d₂) : NoFunc d d₂ :=
  ⟨h.continues.trans h'.continues, h'.size.trans h.size, h'.module.trans h.module⟩

theorem await {p : Pending} {u : Unit} (h : Gives (await p) d u d') : NoFunc d d' := by
  rw [gives_await h]
  exact ⟨.refl _, rfl, rfl⟩

theorem brings (h : NoFunc d d') : Brings named a path d d' := ⟨h.module, h.continues.declares h.size⟩

end NoFunc

namespace Brings

theorem refl (d : Declaring) : Brings named a path d d := ⟨rfl, (Continues.refl _).declares rfl⟩

theorem trans (h : Brings named a path d d₁) (h' : Brings named a path d₁ d₂) : Brings named a path d d₂ :=
  ⟨h'.module.trans h.module, h.declares.trans (h.module ▸ h'.declares)⟩

theorem mono (h : Brings named a path d d') (hnamed : named' → named) : Brings named' a path d d' :=
  ⟨h.module, h.declares.mono hnamed⟩

theorem forM {f : ι → Declare Unit} {ys : List ι} {u : Unit} (h : Gives (ys.forM f) d u d')
    (hf : ∀ y ∈ ys, ∀ {d₁ d₂}, Brings named a path d d₁ → Gives (f y) d₁ () d₂ → Brings named a path d₁ d₂) :
    Brings named a path d d' := gives_forM refl trans h hf

end Brings

/-! ### Leaves -/

/-- A function of a record is a new one with its name. -/
theorem gives_func {outer : String} {fileLocal : Bool} {f : FuncId} (h : Gives (func r outer fileLocal) d f d') :
    f = ⟨d.store.funcs.size⟩ ∧ d'.module = d.module ∧ ∃ x : Func, d'.store = (Store.addFunc x d.store).2 ∧
      x.name = r.name ∧ x.path = outer ∧ x.module = d.module.name ∧ x.native = false := by
  replace h := gives_get_bind.mp h
  obtain ⟨g, d₂, hf, h⟩ := gives_bind.mp h
  obtain ⟨rfl, rfl⟩ := gives_symbols.mp hf
  obtain ⟨_, d₃, hawait, h⟩ := gives_bind.mp h
  obtain ⟨rfl, rfl⟩ := gives_pure.mp h
  rw [gives_await hawait]
  exact ⟨rfl, rfl, _, rfl, rfl, rfl, rfl, rfl⟩

theorem brings_classMember {c : ClassId} {u : Unit} (h : Gives (classMember c (pathName path) r) d u d')
    (hc : c.index < d.store.classes.size) : Brings (Dotless r.name) (.cls c) path d d' := by
  unfold classMember at h
  split at h
  · obtain ⟨y, d₁, hy, h⟩ := gives_bind.mp h
    obtain ⟨rfl, rfl⟩ := gives_symbols.mp hy
    obtain ⟨_, d₂, hawait, h⟩ := gives_bind.mp h
    obtain ⟨hok, rfl⟩ := gives_unique h
    rw [gives_await hawait] at hok ⊢
    obtain ⟨hcont, hsize, -⟩ := Store.continues_defineMember hok hc
    exact NoFunc.brings ⟨Store.continues_addField.trans hcont, hsize, rfl⟩
  · obtain ⟨f, d₁, hf, h⟩ := gives_bind.mp h
    obtain ⟨rfl, hmodule, x, hstore, hname, hpath, hmod, hnative⟩ := gives_func hf
    obtain ⟨hok, rfl⟩ := gives_unique h
    rw [hstore] at hok ⊢
    exact ⟨by rw [hmodule], .one (Store.enters_defineMember hok hc) hpath hmod hnative fun hn => hname ▸ hn⟩
  · obtain ⟨-, rfl⟩ := gives_pure.mp h
    exact .refl _

theorem noFunc_classBases {c : ClassId} {super : Bool} {bs : List TypeRecord} {u : Unit}
    (h : Gives (classBases c super bs) d u d') : NoFunc d d' := by
  cases bs with
  | nil =>
    obtain ⟨-, rfl⟩ := gives_pure.mp h
    exact .refl _
  | cons b rest =>
    obtain ⟨_, d₁, hfirst, h⟩ := gives_bind.mp h
    exact (NoFunc.await hfirst).trans (gives_forM .refl .trans h fun _ _ _ _ _ => .await)

theorem named_of_mem {rs : List SymbolRecord} (h : namedRecords rs) (hr : r ∈ rs) : r.Named := by
  induction rs with
  | nil => cases hr
  | cons y rs ih =>
    obtain ⟨hy, hrs⟩ := h
    rcases List.mem_cons.mp hr with rfl | hr
    · exact hy
    · exact ih hrs hr

theorem dotless_of_named (h : r.Named) : Dotless r.name ∧ namedRecords r.members := by
  obtain ⟨kind, name, fileLocal, type, params, index, value, virtual, override, bases, super, members⟩ := r
  exact h

/-- The methods of a class are declared in it. -/
theorem brings_cls {c : ClassId} (h : Gives (cls (pathName path) r) d c d') :
    Brings (namedRecords r.members) (.cls c) (path ++ [r.name]) d d' ∧ (d'.store.cls c).name = r.name := by
  replace h := gives_get_bind.mp h
  obtain ⟨c', d₁, hc, h⟩ := gives_bind.mp h
  obtain ⟨rfl, rfl⟩ := gives_symbols.mp hc
  obtain ⟨_, d₂, hmembers, h⟩ := gives_bind.mp h
  obtain ⟨_, d₃, hbases, h⟩ := gives_bind.mp h
  obtain ⟨rfl, rfl⟩ := gives_pure.mp h
  have hadded : d.store.Continues (Store.addClass (Class.bare r.name (pathName path) d.module.name r.fileLocal) d.store).2 :=
    Store.continues_addClass rfl
  have hroom : d.store.classes.size <
      (Store.addClass (Class.bare r.name (pathName path) d.module.name r.fileLocal) d.store).2.classes.size := by
    change d.store.classes.size < (d.store.classes.push _).size
    rw [Array.size_push]
    exact Nat.lt_succ_self _
  have htype : (Class.bare r.name (pathName path) d.module.name r.fileLocal).typeName = pathName (path ++ [r.name]) :=
    Store.pathName_concat.symm
  rw [htype] at hmembers
  have hrest : Brings (namedRecords r.members) (.cls ⟨d.store.classes.size⟩) (path ++ [r.name])
      { d with store := (Store.addClass (Class.bare r.name (pathName path) d.module.name r.fileLocal) d.store).2 } d' := by
    refine Brings.trans (Brings.forM hmembers fun y hy d₁ d₂ hd hgives => ?_) (noFunc_classBases hbases).brings
    refine (brings_classMember hgives (Nat.lt_of_lt_of_le hroom (hd.declares.below .cls))).mono fun hn => ?_
    exact (dotless_of_named (named_of_mem hn hy)).1
  have hstart : Brings (namedRecords r.members) (.cls ⟨d.store.classes.size⟩) (path ++ [r.name]) d
      { d with store := (Store.addClass (Class.bare r.name (pathName path) d.module.name r.fileLocal) d.store).2 } :=
    NoFunc.brings ⟨hadded, rfl, rfl⟩
  have hname := hrest.declares.cls ⟨d.store.classes.size⟩ hroom
  rw [Store.cls_addClass, if_pos rfl] at hname
  exact ⟨hstart.trans hrest, hname⟩

/-- The methods of an interface are declared in it. -/
theorem brings_iface {i : InterfaceId} (h : Gives (iface (pathName path) r) d i d') :
    Brings (namedRecords r.members) (.iface i) (path ++ [r.name]) d d' ∧ (d'.store.iface i).name = r.name := by
  replace h := gives_get_bind.mp h
  obtain ⟨i', d₁, hi, h⟩ := gives_bind.mp h
  obtain ⟨rfl, rfl⟩ := gives_symbols.mp hi
  obtain ⟨_, d₂, hmembers, h⟩ := gives_bind.mp h
  obtain ⟨_, d₃, hbases, h⟩ := gives_bind.mp h
  obtain ⟨rfl, rfl⟩ := gives_pure.mp h
  generalize hx : ({ name := r.name, path := pathName path, module := d.module.name, bases := [], members := .empty } :
    Interface) = x at *
  have hadded : d.store.Continues (Store.addInterface x d.store).2 := Store.continues_addInterface (by rw [← hx])
  have hroom : d.store.interfaces.size < (Store.addInterface x d.store).2.interfaces.size := by
    change d.store.interfaces.size < (d.store.interfaces.push _).size
    rw [Array.size_push]
    exact Nat.lt_succ_self _
  have htype : x.typeName = pathName (path ++ [r.name]) := by
    rw [← hx]
    exact Store.pathName_concat.symm
  rw [htype] at hmembers
  have hrest : Brings (namedRecords r.members) (.iface ⟨d.store.interfaces.size⟩) (path ++ [r.name])
      { d with store := (Store.addInterface x d.store).2 } d' := by
    have hwait : NoFunc d₂ d' := gives_forM .refl .trans hbases fun _ _ _ _ _ => .await
    refine Brings.trans (Brings.forM hmembers fun y hy d₁ d₂ hd hgives => ?_) hwait.brings
    obtain ⟨f, d₃, hf, hgives⟩ := gives_bind.mp hgives
    obtain ⟨rfl, hmodule, z, hstore, hname, hpath, hmod, hnative⟩ := gives_func hf
    obtain ⟨hok, rfl⟩ := gives_unique hgives
    rw [hstore] at hok ⊢
    have henters := Store.enters_defineSignature hok (Nat.lt_of_lt_of_le hroom (hd.declares.below .iface))
    exact ⟨by rw [hmodule], .one henters hpath hmod hnative fun hn => hname ▸ (dotless_of_named (named_of_mem hn hy)).1⟩
  have hstart : Brings (namedRecords r.members) (.iface ⟨d.store.interfaces.size⟩) (path ++ [r.name]) d
      { d with store := (Store.addInterface x d.store).2 } := NoFunc.brings ⟨hadded, rfl, rfl⟩
  have hname := hrest.declares.iface ⟨d.store.interfaces.size⟩ hroom
  rw [Store.iface_addInterface, if_pos rfl, ← hx] at hname
  exact ⟨hstart.trans hrest, hname⟩

/-- No function is declared for a global variable. -/
theorem noFunc_global {outer : String} {g : GlobalId} (h : Gives (global outer r) d g d') : NoFunc d d' := by
  replace h := gives_get_bind.mp h
  dsimp only at h
  split at h
  · exact absurd (gives_bind.mp h).choose_spec.choose_spec.1 gives_throw
  · obtain ⟨g', d₁, hg, h⟩ := gives_bind.mp h
    obtain ⟨rfl, rfl⟩ := gives_symbols.mp hg
    obtain ⟨_, d₂, hmodify, h⟩ := gives_bind.mp h
    obtain ⟨_, d₃, hawait, h⟩ := gives_bind.mp h
    obtain ⟨rfl, rfl⟩ := gives_pure.mp h
    obtain rfl := (Prod.mk.inj hmodify).2
    rw [gives_await hawait]
    exact ⟨Store.continues_addGlobal, rfl, rfl⟩

/-- No function is declared for an enumeration. -/
theorem noFunc_enumeration {outer : String} {e : EnumId} (h : Gives (enumeration outer r) d e d') : NoFunc d d' := by
  replace h := gives_get_bind.mp h
  obtain ⟨e', d₁, he, h⟩ := gives_bind.mp h
  obtain ⟨rfl, rfl⟩ := gives_symbols.mp he
  obtain ⟨_, d₂, hitems, h⟩ := gives_bind.mp h
  obtain ⟨rfl, rfl⟩ := gives_pure.mp h
  have hadd : NoFunc d { d with store := (Store.addEnum { name := r.name, path := outer, module := d.module.name, items := .empty }
      d.store).2 } := ⟨Store.continues_addEnum, rfl, rfl⟩
  refine hadd.trans (gives_forM .refl .trans hitems fun y _ d₁ d₂ _ hgives => ?_)
  obtain ⟨_, d₃, hitem, hgives⟩ := gives_bind.mp hgives
  obtain ⟨-, rfl⟩ := gives_pure.mp hgives
  obtain ⟨-, rfl⟩ := gives_unique hitem
  exact ⟨Store.continues_addItem.1, congrArg Array.size Store.continues_addItem.2, rfl⟩

/-! ### Scopes -/

/-- The symbol of a record before it is declared under its name: a scope with everything in it, a function, or a symbol of
another kind. -/
inductive Made (path : List String) (r : SymbolRecord) (d : Declaring) : Sym → Declaring → Prop
  | scope {a : Sym} {d' : Declaring} (h : Brings (namedRecords r.members) a (path ++ [r.name]) d d')
      (hname : d'.store.nameOf a = r.name)
      (hspace : ∀ c, a = .space c → c.index < d'.store.spaces.size ∧ (d'.store.space c).path = pathName (path ++ [r.name])) :
      Made path r d a d'
  | func {x : Func} {d' : Declaring} (hstore : d'.store = (Store.addFunc x d.store).2) (hmodule : d'.module = d.module)
      (hname : x.name = r.name) (hpath : x.path = pathName path) (hmod : x.module = d.module.name) (hnative : x.native = false) :
      Made path r d (.func ⟨d.store.funcs.size⟩) d'
  | other {a : Sym} {d' : Declaring} (h : NoFunc d d') (hspace : ∀ c, a ≠ .space c) : Made path r d a d'

/-- A symbol is declared under its name. -/
theorem Made.define (h : Made path r d a d₁) {u : PUnit} (hdef : Gives (unique (Store.define n a)) d₁ u d')
    (hn : n.index < d.store.spaces.size) (hpath : (d.store.space n).path = pathName path) :
    Brings r.Named (.space n) path d d' := by
  obtain ⟨hok, rfl⟩ := gives_unique hdef
  cases h with
  | scope h hname hspace =>
    have hcont := h.declares.toContinues
    have hn' := Nat.lt_of_lt_of_le hn (hcont.below .space)
    obtain ⟨hdefine, hget, hfuncs⟩ := Store.continues_define hok hn' fun c hc => ⟨(hspace c hc).1, by
      rw [(hspace c hc).2, Store.pathName_concat, ← hpath, (hcont.space n hn).2, hname]⟩
    rw [hname] at hget
    have hlast : NoFunc d₁ { d₁ with store := (Store.define n a d₁.store).2 } := ⟨hdefine, congrArg Array.size hfuncs, rfl⟩
    have hall := h.trans hlast.brings
    exact ⟨hall.module, (hall.declares.mono fun hn => (dotless_of_named hn).2).under hget fun hn => (dotless_of_named hn).1⟩
  | @func x _ hstore hmodule hname hpath' hmod hnative =>
    rw [hstore] at hok ⊢
    exact ⟨by rw [hmodule], .one (Store.enters_define hok hn) hpath' hmod hnative fun hn => hname ▸ (dotless_of_named hn).1⟩
  | other h hspace =>
    have hn' := Nat.lt_of_lt_of_le hn (h.continues.below .space)
    obtain ⟨hdefine, -, hfuncs⟩ := Store.continues_define hok hn' fun c hc => absurd hc (hspace c)
    have hlast : NoFunc d₁ { d₁ with store := (Store.define n a d₁.store).2 } := ⟨hdefine, congrArg Array.size hfuncs, rfl⟩
    exact (h.trans hlast).brings

theorem made_leaf (h : Gives (leaf (pathName path) r) d a d') : Made path r d a d' := by
  unfold leaf at h
  split at h
  · obtain ⟨f, d₁, hf, h⟩ := gives_bind.mp h
    obtain ⟨rfl, rfl⟩ := gives_pure.mp h
    obtain ⟨rfl, hmodule, x, hstore, hname, hpath, hmod, hnative⟩ := gives_func hf
    exact .func hstore hmodule hname hpath hmod hnative
  · obtain ⟨g, d₁, hg, h⟩ := gives_bind.mp h
    obtain ⟨rfl, rfl⟩ := gives_pure.mp h
    exact .other (noFunc_global hg) nofun
  · obtain ⟨c, d₁, hc, h⟩ := gives_bind.mp h
    obtain ⟨rfl, rfl⟩ := gives_pure.mp h
    obtain ⟨hbrings, hname⟩ := brings_cls hc
    exact .scope hbrings hname nofun
  · obtain ⟨i, d₁, hi, h⟩ := gives_bind.mp h
    obtain ⟨rfl, rfl⟩ := gives_pure.mp h
    obtain ⟨hbrings, hname⟩ := brings_iface hi
    exact .scope hbrings hname nofun
  · obtain ⟨e, d₁, he, h⟩ := gives_bind.mp h
    obtain ⟨rfl, rfl⟩ := gives_pure.mp h
    exact .other (noFunc_enumeration he) nofun
  · exact absurd h gives_throw

end Steps

mutual

/-- The symbol of a record has everything in it that the record has. -/
theorem made_symbol {path : List String} {a : Sym} {n : NamespaceId} : ∀ (r : SymbolRecord) {d d' : Declaring},
    Gives (symbol n r) d a d' → (d.store.space n).path = pathName path → Made path r d a d'
  | ⟨kind, name, fileLocal, type, params, index, value, virtual, override, bases, super, members⟩, d, d', h, hpath => by
    rw [symbol] at h
    replace h := gives_get_bind.mp h
    dsimp only at h
    rw [hpath] at h
    split at h
    · replace h := gives_get_bind.mp h
      obtain ⟨c, d₁, hc, h⟩ := gives_bind.mp h
      obtain ⟨rfl, rfl⟩ := gives_symbols.mp hc
      obtain ⟨_, d₂, hinto, h⟩ := gives_bind.mp h
      obtain ⟨rfl, rfl⟩ := gives_pure.mp h
      obtain ⟨hcont, hroom, hname, hspace⟩ := Store.continues_newNamespace d.store name
        (qualified (pathName path) name) d.module.name
      have hpath' := hspace.trans Store.pathName_concat.symm
      have hfirst : NoFunc d { d with store := (Store.newNamespace name (qualified (pathName path) name) d.module.name d.store).2 } :=
        ⟨hcont, rfl, rfl⟩
      have hrest := brings_into members hinto hroom hpath'
      have hkept := hrest.declares.space ⟨d.store.spaces.size⟩ hroom
      refine .scope (hfirst.brings.trans hrest) (hkept.1.trans hname) ?_
      rintro _ ⟨⟩
      exact ⟨Nat.lt_of_lt_of_le hroom (hrest.declares.below .space), hkept.2.trans hpath'⟩
    · exact made_leaf h

/-- The functions of records are declared in the namespace that the records are declared in. -/
theorem brings_into {path : List String} {n : NamespaceId} : ∀ (rs : List SymbolRecord) {d d' : Declaring} {u : Unit},
    Gives (into n rs) d u d' → n.index < d.store.spaces.size → (d.store.space n).path = pathName path →
      Brings (namedRecords rs) (.space n) path d d'
  | [], d, d', u, h, _, _ => by
    rw [into] at h
    obtain ⟨-, rfl⟩ := gives_pure.mp h
    exact .refl _
  | r :: rs, d, d', u, h, hn, hpath => by
    rw [into] at h
    obtain ⟨a, d₁, ha, h⟩ := gives_bind.mp h
    obtain ⟨_, d₂, hdef, h⟩ := gives_bind.mp h
    have hfirst := (made_symbol r ha hpath).define hdef hn hpath
    have hcont := hfirst.declares.toContinues
    have hrest := brings_into rs h (Nat.lt_of_lt_of_le hn (hcont.below .space)) ((hcont.space n hn).2.trans hpath)
    exact (hfirst.mono And.left).trans (hrest.mono And.right)

end

end Declare

/-- The functions of a record are declared in the root namespace of its module. -/
theorem Module.declares_declare {m : Module} {rec : NamespaceRecord} {s : Store} {pending : List Pending}
    (h : (m.declare rec s).1.1 = .ok pending) (hroot : m.space.index < s.spaces.size) (hpath : (s.space m.space).path = "") :
    Store.Declares (namedRecords rec.members) m.name (.space m.space) [] s (m.declare rec s).2 := by
  unfold declare at h ⊢
  dsimp only at h ⊢
  rcases hinto : Declare.into m.space rec.members
    { store := s, module := { m with globals := List.replicate rec.globals.toNat none }, pending := [] } with ⟨e | u, d⟩
  · rw [hinto] at h
    cases h
  · have hstart : (s.space m.space).path = pathName [] := hpath
    exact (Declare.brings_into rec.members hinto hroot hstart).declares

end Weft
