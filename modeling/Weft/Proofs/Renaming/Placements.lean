import Weft.Proofs.Analysis.ModuleNames
import Weft.Proofs.Renaming.Outlines

/-!
# Turns and outlines

A phase takes one unit after the other. Each unit has its turn with the symbols as the units before it left them, so what
the turns of all other units keep can be relied on at the turn of a unit, and what holds after its turn holds in the end.
-/

namespace Weft.Analysis

/-- A unit and the symbols as a phase finds them when it comes to the unit. -/
structure Turn where
  unit : FileUnit
  store : Store

namespace Turn

variable (p : Project) (ph : Phase) (e : Turn)

/-- The symbols after the turn. -/
def after : Store := (runPhase p ph e.unit e.store).2

/-- The unit after its turn. -/
def result : FileUnit := (runPhase p ph e.unit e.store).1.2

/-- The name of the module. -/
abbrev name : String := e.unit.module.name

end Turn

/-- The turns of a phase, in their order. -/
def turns (p : Project) (ph : Phase) : List FileUnit → Store → List Turn
  | [], _ => []
  | u :: us, s => ⟨u, s⟩ :: turns p ph us (runPhase p ph u s).2

section Turns

variable {p p' : Project} {ph : Phase} {us us₁ vs : List FileUnit} {u : FileUnit} {s s₁ t : Store} {e e' : Turn}

theorem turns_unit (p : Project) (ph : Phase) (us : List FileUnit) (s : Store) : (turns p ph us s).map Turn.unit = us := by
  induction us generalizing s with
  | nil => rfl
  | cons u us ih => rw [turns, List.map_cons, ih]

theorem turns_name (p : Project) (ph : Phase) (us : List FileUnit) (s : Store) :
    (turns p ph us s).map Turn.name = us.map (·.module.name) := by
  have h := congrArg (List.map fun u : FileUnit => u.module.name) (turns_unit p ph us s)
  rwa [List.map_map] at h

/-- The units that a phase leaves are those that it leaves at their turns. -/
theorem turns_result : (turns p ph us s).map (Turn.result p ph) = (runUnits p us ph s).1 := by
  induction us generalizing s with
  | nil => rfl
  | cons u us ih =>
    rw [turns, List.map_cons, ih, runUnits_cons]
    rfl

theorem unit_mem_of_turn (he : e ∈ turns p ph us s) : e.unit ∈ us := by
  have h := List.mem_map_of_mem (f := Turn.unit) he
  rwa [turns_unit] at h

theorem exists_turn (p : Project) (ph : Phase) (s : Store) (hu : u ∈ us) : ∃ e ∈ turns p ph us s, e.unit = u := by
  rw [← turns_unit p ph us s] at hu
  obtain ⟨e, he, h⟩ := List.mem_map.mp hu
  exact ⟨e, he, h⟩

theorem result_mem_of_turn (he : e ∈ turns p ph us s) : e.result p ph ∈ (runUnits p us ph s).1 := by
  have h := List.mem_map_of_mem (f := Turn.result p ph) he
  rwa [turns_result] at h

theorem exists_turn_result (hu : u ∈ (runUnits p us ph s).1) : ∃ e ∈ turns p ph us s, e.result p ph = u := by
  rw [← turns_result] at hu
  obtain ⟨e, he, h⟩ := List.mem_map.mp hu
  exact ⟨e, he, h⟩

theorem Turn.result_name : (e.result p ph).module.name = e.name := named_runPhase ph _ _ rfl

theorem turn_unique (hnames : (us.map (·.module.name)).Nodup) (he : e ∈ turns p ph us s) (he' : e' ∈ turns p ph us s)
    (h : e.name = e'.name) : e = e' := by
  rw [← turns_name p ph us s] at hnames
  exact List.inj_on_of_nodup_map hnames he he' h

/-- What every turn keeps holds in the end. -/
theorem keeps_turns {Q : Store → Prop} (hQ : ∀ e ∈ turns p ph us s, Q e.store → Q (e.after p ph)) (hs : Q s) :
    Q (runUnits p us ph s).2 := by
  induction us generalizing s with
  | nil => exact hs
  | cons u us ih =>
    rw [runUnits_cons]
    exact ih (fun e he => hQ e (List.mem_cons_of_mem _ he)) (hQ ⟨u, s⟩ List.mem_cons_self hs)

/-- What every turn keeps holds at every turn. -/
theorem keeps_turns_before {Q : Store → Prop} (hQ : ∀ e ∈ turns p ph us s, Q e.store → Q (e.after p ph)) (hs : Q s)
    (he : e ∈ turns p ph us s) : Q e.store := by
  induction us generalizing s with
  | nil => cases he
  | cons u us ih =>
    rcases List.mem_cons.mp he with rfl | he
    · exact hs
    · exact ih (fun e he => hQ e (List.mem_cons_of_mem _ he)) (hQ ⟨u, s⟩ List.mem_cons_self hs) he

/-- What the turns of all other units keep holds at the turn of a unit if it did at the start, and in the end if it does
after the turn. -/
theorem keeps_other_turns (hnames : (us.map (·.module.name)).Nodup) (he : e ∈ turns p ph us s) {Q : Store → Prop}
    (hQ : ∀ d ∈ turns p ph us s, d.name ≠ e.name → Q d.store → Q (d.after p ph)) :
    (Q s → Q e.store) ∧ (Q (e.after p ph) → Q (runUnits p us ph s).2) := by
  induction us generalizing s with
  | nil => cases he
  | cons u us ih =>
    obtain ⟨hu, hus⟩ := List.nodup_cons.mp hnames
    have hothers : ∀ d ∈ turns p ph us (runPhase p ph u s).2, d.name ≠ u.module.name := by
      rintro d hd heq
      exact hu (List.mem_map.mpr ⟨d.unit, unit_mem_of_turn hd, heq⟩)
    rw [runUnits_cons]
    rcases List.mem_cons.mp he with rfl | he
    · exact ⟨id, keeps_turns fun d hd => hQ d (List.mem_cons_of_mem _ hd) (hothers d hd)⟩
    · obtain ⟨hbefore, hafter⟩ := ih hus he fun d hd => hQ d (List.mem_cons_of_mem _ hd)
      exact ⟨fun hs => hbefore (hQ ⟨u, s⟩ List.mem_cons_self (hothers e he).symm hs), hafter⟩

theorem Sweep.runUnits_eq (h : Sweep p ph us s us₁ s₁) : runUnits p us ph s = (us₁, s₁) := by
  induction h with
  | nil => rfl
  | cons head tail ih => rw [runUnits_cons, head.result, ih]

theorem Sweep.names (h : Sweep p ph us s us₁ s₁) : us₁.map (·.module.name) = us.map (·.module.name) := by
  have hnames : (runUnits p us ph s).1.map (·.module.name) = us.map (·.module.name) := names_runUnits
  rwa [h.runUnits_eq] at hnames

end Turns

/-! ## Units in two analyses -/

/-- Every unit of one list has a counterpart of the same name in another. -/
def Paired (R : FileUnit → FileUnit → Prop) (us vs : List FileUnit) : Prop :=
  ∀ u ∈ us, ∃ v ∈ vs, v.module.name = u.module.name ∧ R u v

section Paired

variable {p p' : Project} {ph : Phase} {us us₁ vs : List FileUnit} {s s₁ t : Store}
  {R S : FileUnit → FileUnit → Store → Store → Prop}

/-- Two analyses take their units in different orders. What relates a unit and its counterpart, and is kept by the turns of
all other units on both sides, becomes what their own turns make of it. -/
theorem Paired.turns (h : Paired (fun u v => R u v s t) us vs)
    (hnames : (us.map (·.module.name)).Nodup) (hnames' : (vs.map (·.module.name)).Nodup)
    (hleft : ∀ {u v t}, ∀ d ∈ Analysis.turns p ph us s, u.module.name ≠ d.name → R u v d.store t → R u v (d.after p ph) t)
    (hright : ∀ {u v s}, ∀ d ∈ Analysis.turns p' ph vs t, v.module.name ≠ d.name → R u v s d.store → R u v s (d.after p' ph))
    (hleft' : ∀ {u v t}, ∀ d ∈ Analysis.turns p ph us s, u.module.name ≠ d.name → S u v d.store t → S u v (d.after p ph) t)
    (hright' : ∀ {u v s}, ∀ d ∈ Analysis.turns p' ph vs t, v.module.name ≠ d.name → S u v s d.store →
      S u v s (d.after p' ph))
    (hstep : ∀ d ∈ Analysis.turns p ph us s, ∀ {v t}, v ∈ vs → v.module.name = d.name → R d.unit v d.store t →
      S (d.result p ph) (runPhase p' ph v t).1.2 (d.after p ph) (runPhase p' ph v t).2) :
    Paired (fun u v => S u v (runUnits p us ph s).2 (runUnits p' vs ph t).2) (runUnits p us ph s).1
      (runUnits p' vs ph t).1 := by
  intro u₁ hu₁
  obtain ⟨e, he, rfl⟩ := exists_turn_result hu₁
  obtain ⟨v, hv, hname, hR⟩ := h e.unit (unit_mem_of_turn he)
  obtain ⟨e', he', rfl⟩ := exists_turn p' ph t hv
  obtain ⟨hbefore, hafter⟩ := keeps_other_turns hnames he (Q := fun s => R e.unit e'.unit s t)
    fun d hd hne => hleft d hd hne.symm
  obtain ⟨hbefore', -⟩ := keeps_other_turns hnames' he' (Q := fun t => R e.unit e'.unit e.store t)
    fun d hd hne => hright d hd hne.symm
  have hR' := hstep e he hv hname (hbefore' (hbefore hR))
  have hresult : (e.result p ph).module.name = e.name := Turn.result_name
  have hresult' : (e'.result p' ph).module.name = e'.name := Turn.result_name
  obtain ⟨-, hend⟩ := keeps_other_turns hnames he (Q := fun s => S (e.result p ph) (e'.result p' ph) s (e'.after p' ph))
    fun d hd hne => hleft' d hd (hresult ▸ hne.symm)
  obtain ⟨-, hend'⟩ := keeps_other_turns hnames' he'
    (Q := fun t => S (e.result p ph) (e'.result p' ph) (runUnits p us ph s).2 t)
    fun d hd hne => hright' d hd (hresult' ▸ hne.symm)
  exact ⟨e'.result p' ph, result_mem_of_turn he', by rw [hresult', hresult]; exact hname, hend' (hend hR')⟩

end Paired

end Weft.Analysis

/-!
## Renamings between two outlines

Two outlines of the same modules start from the same symbols and make the symbols of each module at its turn, in an order of
its own. One renaming keeps the symbols from before and leads from the new symbols of each module in the one outline to those
in the other.
-/

namespace Weft

/-- The renaming keeps the identities of the symbols in a store. -/
def Renaming.Fixes (σ : Renaming) (s : Store) : Prop := ∀ k i, i < s.count k → σ.index k i = i

namespace Analysis

section Counts

variable {p p' : Project} {ph : Phase} {us vs : List FileUnit} {s t : Store} {e e' : Turn} {k : SymKind}

/-- The numbers of the symbols of a kind that a turn makes. -/
def Turn.made (p : Project) (ph : Phase) (e : Turn) (k : SymKind) : List Nat :=
  List.range' (e.store.count k) ((e.after p ph).count k - e.store.count k)

theorem below_turns (hbelow : ∀ e ∈ turns p ph us s, e.store.Below (e.after p ph)) (he : e ∈ turns p ph us s) :
    s.Below e.store ∧ (e.after p ph).Below (runUnits p us ph s).2 := by
  induction us generalizing s with
  | nil => cases he
  | cons u us ih =>
    have hfirst := hbelow ⟨u, s⟩ List.mem_cons_self
    have hrest : ∀ e ∈ turns p ph us (runPhase p ph u s).2, e.store.Below (e.after p ph) :=
      fun e he => hbelow e (List.mem_cons_of_mem _ he)
    rw [runUnits_cons]
    rcases List.mem_cons.mp he with rfl | he
    · exact ⟨.refl s, keeps_turns (Q := fun t => (runPhase p ph u s).2.Below t) (fun d hd h => h.trans (hrest d hd)) (.refl _)⟩
    · obtain ⟨hbefore, hafter⟩ := ih hrest he
      exact ⟨Store.Below.trans hfirst hbefore, hafter⟩

/-- The turns make their symbols one after the other. -/
theorem flatMap_made (hbelow : ∀ e ∈ turns p ph us s, e.store.Below (e.after p ph)) :
    s.count k ≤ (runUnits p us ph s).2.count k ∧ (turns p ph us s).flatMap (Turn.made p ph · k) =
      List.range' (s.count k) ((runUnits p us ph s).2.count k - s.count k) := by
  induction us generalizing s with
  | nil =>
    have hnil : (runUnits p [] ph s).2 = s := rfl
    simp [hnil, turns]
  | cons u us ih =>
    have hfirst : s.count k ≤ (runPhase p ph u s).2.count k := hbelow ⟨u, s⟩ List.mem_cons_self k
    obtain ⟨hle, hflat⟩ := ih fun e he => hbelow e (List.mem_cons_of_mem _ he)
    rw [runUnits_cons, turns, List.flatMap_cons, hflat]
    refine ⟨hfirst.trans hle, ?_⟩
    rw [Turn.made, Turn.after]
    have happend := @List.range'_append (s.count k) ((runPhase p ph u s).2.count k - s.count k)
      ((runUnits p us ph (runPhase p ph u s).2).2.count k - (runPhase p ph u s).2.count k) 1
    rw [Nat.one_mul, Nat.add_sub_cancel' hfirst] at happend
    have hsum : (runPhase p ph u s).2.count k - s.count k +
        ((runUnits p us ph (runPhase p ph u s).2).2.count k - (runPhase p ph u s).2.count k) =
          (runUnits p us ph (runPhase p ph u s).2).2.count k - s.count k := by omega
    rw [happend, hsum]

/-- Of two turns one comes after the other. -/
theorem turns_apart (hbelow : ∀ e ∈ turns p ph us s, e.store.Below (e.after p ph)) (he : e ∈ turns p ph us s)
    (he' : e' ∈ turns p ph us s) (hne : e.name ≠ e'.name) :
    (e.after p ph).Below e'.store ∨ (e'.after p ph).Below e.store := by
  induction us generalizing s with
  | nil => cases he
  | cons u us ih =>
    have hrest : ∀ e ∈ turns p ph us (runPhase p ph u s).2, e.store.Below (e.after p ph) :=
      fun e he => hbelow e (List.mem_cons_of_mem _ he)
    rcases List.mem_cons.mp he with rfl | he <;> rcases List.mem_cons.mp he' with rfl | he'
    · exact absurd rfl hne
    · exact .inl (below_turns hrest he').1
    · exact .inr (below_turns hrest he).1
    · exact ih hrest he he'

/-- There is a renaming between two outlines of the same modules that start from the same symbols: it keeps these symbols,
leads from the symbols that a module makes at its turn, in a given order, to those that the module makes in the other
outline, and from all others to identities that the other outline does not use. -/
theorem exists_renaming_turns {old : Turn → SymKind → List Nat} (hnames : (us.map (·.module.name)).Nodup)
    (hbelow : ∀ e ∈ turns p ph us s, e.store.Below (e.after p ph))
    (hbelow' : ∀ e ∈ turns p' ph vs s, e.store.Below (e.after p' ph))
    (hpaired : ∀ e ∈ turns p ph us s, ∃ e' ∈ turns p' ph vs s, e'.name = e.name)
    (hold : ∀ e ∈ turns p ph us s, ∀ k, (old e k).Perm (e.made p ph k))
    (hsize : ∀ e ∈ turns p ph us s, ∀ e' ∈ turns p' ph vs s, e'.name = e.name → ∀ k,
      (e'.after p' ph).count k = e'.store.count k + (old e k).length)
    (hnames' : (vs.map (·.module.name)).Nodup) :
    ∃ σ : Renaming, σ.Fixes s ∧
      (∀ e ∈ turns p ph us s, ∀ e' ∈ turns p' ph vs s, e'.name = e.name → ∀ k j (h : j < (old e k).length),
        σ.index k (old e k)[j] = e'.store.count k + j) ∧
      ∀ k i, (runUnits p us ph s).2.count k ≤ i → (runUnits p' vs ph s).2.count k ≤ σ.index k i := by
  choose! other hother hname using hpaired
  let base : Renaming.Block := ⟨fun k => List.range' 0 (s.count k), fun _ => 0⟩
  let block : Turn → Renaming.Block := fun e => ⟨old e, fun k => (other e).store.count k⟩
  have hperm : ∀ k, ((base :: (turns p ph us s).map block).flatMap fun b => b.old k).Perm
      (List.range' 0 ((runUnits p us ph s).2.count k)) := by
    intro k
    obtain ⟨hle, hflat⟩ := flatMap_made (k := k) hbelow
    have hblocks : ((turns p ph us s).flatMap fun e => old e k).Perm
        (List.range' (s.count k) ((runUnits p us ph s).2.count k - s.count k)) := by
      rw [← hflat]
      exact List.Perm.flatMap_left _ fun e he => hold e he k
    rw [List.flatMap_cons, List.flatMap_map]
    refine (List.Perm.append_left _ hblocks).trans (.of_eq ?_)
    have happend := @List.range'_append 0 (s.count k) ((runUnits p us ph s).2.count k - s.count k) 1
    rw [Nat.one_mul, Nat.zero_add, Nat.add_sub_cancel' hle] at happend
    exact happend
  have hends : ∀ e ∈ turns p ph us s, ∀ k, (other e).store.count k + (old e k).length = ((other e).after p' ph).count k :=
    fun e he k => (hsize e he _ (hother e he) (hname e he) k).symm
  have hexists := Renaming.exists_renaming (base :: (turns p ph us s).map block)
    (M := fun k => (runUnits p' vs ph s).2.count k) (fun k => (hperm k).nodup_iff.mpr List.nodup_range') ?_ ?_
  · obtain ⟨σ, hσ, hout⟩ := hexists
    refine ⟨σ, fun k i hi => ?_, fun e he e' he' heq k j h => ?_, fun k i hi => hout k i ?_⟩
    · have hbase := hσ base List.mem_cons_self k i (by simpa [base] using hi)
      simpa [base] using hbase
    · obtain rfl : other e = e' := turn_unique hnames' (hother e he) he' ((hname e he).trans heq.symm)
      exact hσ (block e) (List.mem_cons_of_mem _ (List.mem_map.mpr ⟨e, he, rfl⟩)) k j h
    · rw [(hperm k).mem_iff, List.mem_range'_1]
      omega
  · refine List.pairwise_cons.mpr ⟨fun b hb k => ?_, List.pairwise_map.mpr ?_⟩
    · obtain ⟨e, he, rfl⟩ := List.mem_map.mp hb
      left
      simpa [base] using (below_turns hbelow' (hother e he)).1 k
    · rw [← turns_name p ph us s, List.Nodup, List.pairwise_map] at hnames
      refine hnames.imp_of_mem fun {e f} he hf hne k => ?_
      have hne' : (other e).name ≠ (other f).name := by rwa [hname e he, hname f hf]
      have he' := hends e he k
      have hf' := hends f hf k
      rcases turns_apart hbelow' (hother e he) (hother f hf) hne' with h | h
      · exact .inl (he'.trans_le (h k))
      · exact .inr (hf'.trans_le (h k))
  · intro b hb k
    rcases List.mem_cons.mp hb with rfl | hb
    · simpa [base] using (flatMap_made (k := k) hbelow').1
    · obtain ⟨e, he, rfl⟩ := List.mem_map.mp hb
      exact (hends e he k).trans_le ((below_turns hbelow' (hother e he)).2 k)

end Counts

end Analysis

end Weft

/-!
## Symbols after two outlines

The symbols from before the outlines refer to each other only, so that the renaming between two outlines leaves them alone,
and leads from the new symbols of each module to their counterparts.
-/

namespace Weft

/-- What the symbols of a store refer to is in the store: a renaming that keeps the identities in the store changes
nothing of what the store says. -/
structure Store.Closed (s : Store) : Prop where
  spaces : ∀ σ : Renaming, σ.Fixes s → ∀ x ∈ s.spaces, x.rename σ = x
  funcs : ∀ σ : Renaming, σ.Fixes s → ∀ x ∈ s.funcs, x.rename σ = x
  globals : ∀ σ : Renaming, σ.Fixes s → ∀ x ∈ s.globals, x.rename σ = x
  fields : ∀ σ : Renaming, σ.Fixes s → ∀ x ∈ s.fields, x.rename σ = x
  classes : ∀ σ : Renaming, σ.Fixes s → ∀ x ∈ s.classes, x.rename σ = x
  interfaces : ∀ σ : Renaming, σ.Fixes s → ∀ x ∈ s.interfaces, x.rename σ = x
  enums : ∀ σ : Renaming, σ.Fixes s → ∀ x ∈ s.enums, x.rename σ = x

theorem Renaming.Fixes.space {σ : Renaming} {s : Store} (h : σ.Fixes s) {n : NamespaceId} (hn : n.index < s.spaces.size) :
    σ.space n = n := congrArg NamespaceId.mk (h .space n.index hn)

namespace Store.Closed

variable {s : Store} {σ : Renaming} (h : s.Closed) (hσ : σ.Fixes s)

private theorem getD_fixed {α : Type} {xs : Array α} {r : α → α} {d : α} (hd : r d = d) (hxs : ∀ x ∈ xs, r x = x) (i : Nat) :
    r (xs[i]?.getD d) = xs[i]?.getD d := by
  cases hx : xs[i]? with
  | none => exact hd
  | some x => exact hxs x (Array.mem_of_getElem? hx)

include h hσ

theorem space (n : NamespaceId) : (s.space n).rename σ = s.space n := getD_fixed rfl (h.spaces σ hσ) _

theorem func (f : FuncId) : (s.func f).rename σ = s.func f := getD_fixed rfl (h.funcs σ hσ) _

theorem global (g : GlobalId) : (s.global g).rename σ = s.global g := getD_fixed rfl (h.globals σ hσ) _

theorem field (f : FieldId) : (s.field f).rename σ = s.field f := getD_fixed rfl (h.fields σ hσ) _

theorem cls (c : ClassId) : (s.cls c).rename σ = s.cls c := getD_fixed rfl (h.classes σ hσ) _

theorem iface (i : InterfaceId) : (s.iface i).rename σ = s.iface i := getD_fixed rfl (h.interfaces σ hσ) _

theorem enumeration (e : EnumId) : (s.enumeration e).rename σ = s.enumeration e := getD_fixed rfl (h.enums σ hσ) _

end Store.Closed

/-- The second store says of renamed symbols that are owned what the first says of the symbols, but for the positions of
functions and fields. -/
structure Store.Agrees (σ : Renaming) (own : SymKind → Nat → Prop) (s s' : Store) : Prop where
  space : ∀ n, own .space n.index → s'.space (σ.space n) = (s.space n).rename σ
  func : ∀ f, own .func f.index → ∃ index, s'.func (σ.func f) = { (s.func f).rename σ with index }
  global : ∀ g, own .global g.index → s'.global (σ.global g) = (s.global g).rename σ
  field : ∀ f, own .field f.index → ∃ index, s'.field (σ.field f) = { (s.field f).rename σ with index }
  cls : ∀ c, own .cls c.index → s'.cls (σ.cls c) = (s.cls c).rename σ
  iface : ∀ i, own .iface i.index → s'.iface (σ.iface i) = (s.iface i).rename σ
  enumeration : ∀ e, own .enumeration e.index → s'.enumeration (σ.enumeration e) = (s.enumeration e).rename σ

/-- The second store has renamed symbols that are owned at the positions where the first has the symbols. -/
structure Store.SamePositions (σ : Renaming) (own : SymKind → Nat → Prop) (s s' : Store) : Prop where
  func : ∀ f, own .func f.index → (s'.func (σ.func f)).index = (s.func f).index
  field : ∀ f, own .field f.index → (s'.field (σ.field f)).index = (s.field f).index

namespace Store

variable {σ : Renaming} {own own' : SymKind → Nat → Prop} {s s' t t' : Store} {roots roots' : List NamespaceId}

theorem Copied.agrees (h : s.Copied σ own s') : s.Agrees σ own s' where
  space _ := h.space
  func _ hf := ⟨_, h.func hf⟩
  global _ := h.global
  field _ hf := ⟨_, h.field hf⟩
  cls _ := h.cls
  iface _ := h.iface
  enumeration _ := h.enumeration

theorem Copied.samePositions (h : s.Copied σ own s') : s.SamePositions σ own s' where
  func f hf := by rw [h.func hf, Func.rename]
  field f hf := by rw [h.field hf, Field.rename]

/-! ## Kept symbols -/

namespace Kept

theorem space (h : s.Kept roots t) {n : NamespaceId} (hn : n.index < s.spaces.size) (hroot : n ∉ roots) :
    t.space n = s.space n := congrArg (Option.getD · default) (h.spaces.same n.index hn hroot)

theorem func (h : s.Kept roots t) {f : FuncId} (hf : f.index < s.funcs.size) : t.func f = s.func f :=
  congrArg (Option.getD · default) (h.funcs.same f.index hf id)

theorem global (h : s.Kept roots t) {g : GlobalId} (hg : g.index < s.globals.size) : t.global g = s.global g :=
  congrArg (Option.getD · default) (h.globals.same g.index hg id)

theorem field (h : s.Kept roots t) {f : FieldId} (hf : f.index < s.fields.size) : t.field f = s.field f :=
  congrArg (Option.getD · default) (h.fields.same f.index hf id)

theorem cls (h : s.Kept roots t) {c : ClassId} (hc : c.index < s.classes.size) : t.cls c = s.cls c :=
  congrArg (Option.getD · default) (h.classes.same c.index hc id)

theorem iface (h : s.Kept roots t) {i : InterfaceId} (hi : i.index < s.interfaces.size) : t.iface i = s.iface i :=
  congrArg (Option.getD · default) (h.interfaces.same i.index hi id)

theorem enumeration (h : s.Kept roots t) {e : EnumId} (he : e.index < s.enums.size) :
    t.enumeration e = s.enumeration e := congrArg (Option.getD · default) (h.enums.same e.index he id)

theorem mono (h : s.Kept roots t) (hroots : ∀ n ∈ roots, n ∈ roots') : s.Kept roots' t :=
  { h with spaces := h.spaces.mono fun _ _ hn => hroots _ hn }

end Kept

/-- Symbols that are owned, and that are in two stores, are kept where both stores grow. -/
theorem Agrees.kept (h : s.Agrees σ own s') (hs : s.Kept roots t) (hs' : s'.Kept roots' t')
    (hown : ∀ k i, own k i → i < s.count k ∧ σ.index k i < s'.count k)
    (hroots : ∀ n : NamespaceId, own .space n.index → n ∉ roots ∧ σ.space n ∉ roots') : t.Agrees σ own t' where
  space n hn := by
    rw [hs.space (hown _ _ hn).1 (hroots n hn).1, hs'.space (hown _ _ hn).2 (hroots n hn).2]
    exact h.space n hn
  func f hf := by
    rw [hs.func (hown _ _ hf).1, hs'.func (hown _ _ hf).2]
    exact h.func f hf
  global g hg := by
    rw [hs.global (hown _ _ hg).1, hs'.global (hown _ _ hg).2]
    exact h.global g hg
  field f hf := by
    rw [hs.field (hown _ _ hf).1, hs'.field (hown _ _ hf).2]
    exact h.field f hf
  cls c hc := by
    rw [hs.cls (hown _ _ hc).1, hs'.cls (hown _ _ hc).2]
    exact h.cls c hc
  iface i hi := by
    rw [hs.iface (hown _ _ hi).1, hs'.iface (hown _ _ hi).2]
    exact h.iface i hi
  enumeration e he := by
    rw [hs.enumeration (hown _ _ he).1, hs'.enumeration (hown _ _ he).2]
    exact h.enumeration e he

theorem SamePositions.kept (h : s.SamePositions σ own s') (hs : s.Kept roots t) (hs' : s'.Kept roots' t')
    (hown : ∀ k i, own k i → i < s.count k ∧ σ.index k i < s'.count k) : t.SamePositions σ own t' where
  func f hf := by
    rw [hs.func (hown _ _ hf).1, hs'.func (hown _ _ hf).2]
    exact h.func f hf
  field f hf := by
    rw [hs.field (hown _ _ hf).1, hs'.field (hown _ _ hf).2]
    exact h.field f hf

/-- Symbols that are kept by both of two stores and by the renaming agree. -/
theorem Closed.agrees (h : s.Closed) (hσ : σ.Fixes s) (ht : s.Kept roots t) (ht' : s.Kept roots t') :
    t.Agrees σ (fun k i => i < s.count k ∧ (k = .space → ⟨i⟩ ∉ roots)) t' where
  space n hn := by
    rw [hσ.space hn.1, ht.space hn.1 (hn.2 rfl), ht'.space hn.1 (hn.2 rfl), h.space hσ]
  func f hf := by
    have hid : σ.func f = f := congrArg FuncId.mk (hσ .func f.index hf.1)
    rw [hid, ht.func hf.1, ht'.func hf.1, h.func hσ]
    exact ⟨_, rfl⟩
  global g hg := by
    have hid : σ.global g = g := congrArg GlobalId.mk (hσ .global g.index hg.1)
    rw [hid, ht.global hg.1, ht'.global hg.1, h.global hσ]
  field f hf := by
    have hid : σ.field f = f := congrArg FieldId.mk (hσ .field f.index hf.1)
    rw [hid, ht.field hf.1, ht'.field hf.1, h.field hσ]
    exact ⟨_, rfl⟩
  cls c hc := by
    have hid : σ.cls c = c := congrArg ClassId.mk (hσ .cls c.index hc.1)
    rw [hid, ht.cls hc.1, ht'.cls hc.1, h.cls hσ]
  iface i hi := by
    have hid : σ.iface i = i := congrArg InterfaceId.mk (hσ .iface i.index hi.1)
    rw [hid, ht.iface hi.1, ht'.iface hi.1, h.iface hσ]
  enumeration e he := by
    have hid : σ.enumeration e = e := congrArg EnumId.mk (hσ .enumeration e.index he.1)
    rw [hid, ht.enumeration he.1, ht'.enumeration he.1, h.enumeration hσ]

theorem Kept.samePositions (hσ : σ.Fixes s) (ht : s.Kept roots t) (ht' : s.Kept roots' t') :
    t.SamePositions σ (fun k i => i < s.count k) t' where
  func f hf := by
    have hid : σ.func f = f := congrArg FuncId.mk (hσ .func f.index hf)
    rw [hid, ht.func hf, ht'.func hf]
  field f hf := by
    have hid : σ.field f = f := congrArg FieldId.mk (hσ .field f.index hf)
    rw [hid, ht.field hf, ht'.field hf]

/-! ## Symbols that are missing -/

section Missing

variable {n : NamespaceId} {f : FuncId} {g : GlobalId} {x : FieldId} {c : ClassId} {i : InterfaceId} {e : EnumId}

theorem space_missing (h : s.count .space ≤ n.index) : s.space n = default :=
  congrArg (Option.getD · default) (Array.getElem?_eq_none h)

theorem func_missing (h : s.count .func ≤ f.index) : s.func f = default :=
  congrArg (Option.getD · default) (Array.getElem?_eq_none h)

theorem global_missing (h : s.count .global ≤ g.index) : s.global g = default :=
  congrArg (Option.getD · default) (Array.getElem?_eq_none h)

theorem field_missing (h : s.count .field ≤ x.index) : s.field x = default :=
  congrArg (Option.getD · default) (Array.getElem?_eq_none h)

theorem cls_missing (h : s.count .cls ≤ c.index) : s.cls c = default :=
  congrArg (Option.getD · default) (Array.getElem?_eq_none h)

theorem iface_missing (h : s.count .iface ≤ i.index) : s.iface i = default :=
  congrArg (Option.getD · default) (Array.getElem?_eq_none h)

theorem enumeration_missing (h : s.count .enumeration ≤ e.index) : s.enumeration e = default :=
  congrArg (Option.getD · default) (Array.getElem?_eq_none h)

end Missing

/-- Symbols that are in neither of two stores agree. -/
theorem agrees_missing (hout : ∀ k i, t.count k ≤ i → t'.count k ≤ σ.index k i) :
    t.Agrees σ (fun k i => t.count k ≤ i) t' where
  space n hn := by rw [space_missing hn, space_missing (hout _ _ hn)]; rfl
  func f hf := by rw [func_missing hf, func_missing (hout _ _ hf)]; exact ⟨_, rfl⟩
  global g hg := by rw [global_missing hg, global_missing (hout _ _ hg)]; rfl
  field x hx := by rw [field_missing hx, field_missing (hout _ _ hx)]; exact ⟨_, rfl⟩
  cls c hc := by rw [cls_missing hc, cls_missing (hout _ _ hc)]; rfl
  iface i hi := by rw [iface_missing hi, iface_missing (hout _ _ hi)]; rfl
  enumeration e he := by rw [enumeration_missing he, enumeration_missing (hout _ _ he)]; rfl

theorem samePositions_missing (hout : ∀ k i, t.count k ≤ i → t'.count k ≤ σ.index k i) :
    t.SamePositions σ (fun k i => t.count k ≤ i) t' where
  func f hf := by rw [func_missing hf, func_missing (hout _ _ hf)]
  field x hx := by rw [field_missing hx, field_missing (hout _ _ hx)]

/-- Symbols agree everywhere if each belongs to someone for whom they do. -/
theorem agrees_of_cover (h : ∀ k i, ∃ own : SymKind → Nat → Prop, own k i ∧ s.Agrees σ own s') :
    s.Agrees σ (fun _ _ => True) s' where
  space n _ := let ⟨_, hown, h⟩ := h .space n.index; h.space n hown
  func f _ := let ⟨_, hown, h⟩ := h .func f.index; h.func f hown
  global g _ := let ⟨_, hown, h⟩ := h .global g.index; h.global g hown
  field f _ := let ⟨_, hown, h⟩ := h .field f.index; h.field f hown
  cls c _ := let ⟨_, hown, h⟩ := h .cls c.index; h.cls c hown
  iface i _ := let ⟨_, hown, h⟩ := h .iface i.index; h.iface i hown
  enumeration e _ := let ⟨_, hown, h⟩ := h .enumeration e.index; h.enumeration e hown

theorem samePositions_of_cover (h : ∀ k i, ∃ own : SymKind → Nat → Prop, own k i ∧ s.SamePositions σ own s') :
    s.SamePositions σ (fun _ _ => True) s' where
  func f _ := let ⟨_, hown, h⟩ := h .func f.index; h.func f hown
  field f _ := let ⟨_, hown, h⟩ := h .field f.index; h.field f hown

end Store

end Weft

namespace Weft.Analysis

/-! ## Outlines of projects -/

/-- What belongs to a unit after its turn: the new symbols and the root namespace of its module. -/
def Turn.Owns (p : Project) (ph : Phase) (e : Turn) : SymKind → Nat → Prop :=
  Region e.unit.module.space e.store (e.after p ph)

theorem Turn.mem_made {p : Project} {ph : Phase} {e : Turn} {k : SymKind} {i : Nat} :
    i ∈ e.made p ph k ↔ e.store.count k ≤ i ∧ i < (e.after p ph).count k := by
  rw [made, List.mem_range'_1]
  omega

section Outlines

variable {p p' : Project} {ph : Phase} {us vs : List FileUnit} {s : Store} {e e' : Turn}

/-- The root namespaces of the modules. -/
def roots (us : List FileUnit) : List NamespaceId := us.map fun u => u.module.space

/-- The root namespaces of all modules but one. -/
def otherRoots (us : List FileUnit) (name : String) : List NamespaceId :=
  roots (us.filter fun u => u.module.name ≠ name)

/-- Turns that keep everything but the root namespace of their unit. -/
def KeepOthers (p : Project) (ph : Phase) (us : List FileUnit) (s : Store) : Prop :=
  ∀ e ∈ turns p ph us s, e.store.Kept [e.unit.module.space] (e.after p ph)

theorem KeepOthers.below (h : KeepOthers p ph us s) (he : e ∈ turns p ph us s) : e.store.Below (e.after p ph) := (h e he).below

/-- The turns of a phase keep everything but the root namespaces. -/
theorem KeepOthers.all (h : KeepOthers p ph us s) : s.Kept (roots us) (runUnits p us ph s).2 := by
  refine keeps_turns (Q := fun t => s.Kept (roots us) t) (fun e he hkept => ?_) (.refl s)
  refine (hkept.trans (h e he)).mono fun n hn => ?_
  rcases List.mem_append.mp hn with hn | hn
  · exact hn
  · obtain rfl := List.mem_singleton.mp hn
    exact List.mem_map.mpr ⟨_, unit_mem_of_turn he, rfl⟩

/-- The turns of other units keep everything but the root namespaces of their modules. -/
theorem KeepOthers.others (h : KeepOthers p ph us s) (hnames : (us.map (·.module.name)).Nodup) (he : e ∈ turns p ph us s) :
    s.Kept (otherRoots us e.name) e.store ∧ (e.after p ph).Kept (otherRoots us e.name) (runUnits p us ph s).2 := by
  have hkeeps : ∀ a : Store, ∀ d ∈ turns p ph us s, d.name ≠ e.name → a.Kept (otherRoots us e.name) d.store →
      a.Kept (otherRoots us e.name) (d.after p ph) := by
    intro a d hd hne hkept
    refine (hkept.trans (h d hd)).mono fun n hn => ?_
    rcases List.mem_append.mp hn with hn | hn
    · exact hn
    · obtain rfl := List.mem_singleton.mp hn
      exact List.mem_map.mpr ⟨d.unit, List.mem_filter.mpr ⟨unit_mem_of_turn hd, by simpa using hne⟩, rfl⟩
  exact ⟨(keeps_other_turns hnames he (hkeeps s)).1 (.refl s), (keeps_other_turns hnames he (hkeeps _)).2 (.refl _)⟩

/-- The root namespace of a module is not one of the others. -/
theorem notMem_otherRoots (hroots : (roots us).Nodup) {u : FileUnit} (hu : u ∈ us) :
    u.module.space ∉ otherRoots us u.module.name := by
  intro hn
  obtain ⟨v, hv, heq⟩ := List.mem_map.mp hn
  obtain ⟨hv, hne⟩ := List.mem_filter.mp hv
  obtain rfl := List.inj_on_of_nodup_map hroots hv hu heq
  simp at hne

theorem mem_otherRoots {name : String} {n : NamespaceId} (h : n ∈ otherRoots us name) : n ∈ roots us := by
  obtain ⟨v, hv, rfl⟩ := List.mem_map.mp h
  exact List.mem_map.mpr ⟨v, (List.mem_filter.mp hv).1, rfl⟩

/-- Two outlines of modules, with an order of the symbols that each module makes in the first one. -/
structure Outlining (p p' : Project) (us vs : List FileUnit) (s : Store) (old : Turn → SymKind → List Nat) : Prop where
  names : (us.map (·.module.name)).Nodup
  names' : (vs.map (·.module.name)).Nodup
  roots_nodup : (roots us).Nodup
  roots_nodup' : (roots vs).Nodup
  room : ∀ n ∈ roots us, n.index < s.spaces.size
  paired : ∀ u ∈ us, ∃ v ∈ vs, v.module.name = u.module.name
  paired' : ∀ v ∈ vs, v.module.space ∈ roots us
  sameRoot : ∀ u ∈ us, ∀ v ∈ vs, v.module.name = u.module.name → v.module.space = u.module.space
  keep : KeepOthers p .outline us s
  keep' : KeepOthers p' .outline vs s
  perm : ∀ e ∈ turns p .outline us s, ∀ k, (old e k).Perm (e.made p .outline k)
  size : ∀ e ∈ turns p .outline us s, ∀ e' ∈ turns p' .outline vs s, e'.name = e.name → ∀ k,
    (e'.after p' .outline).count k = e'.store.count k + (old e k).length

/-- A renaming that leads from the symbols of modules in one outline to those in another. -/
structure Outlining.Renames (p p' : Project) (us vs : List FileUnit) (s : Store) (old : Turn → SymKind → List Nat)
    (σ : Renaming) : Prop where
  fixes : σ.Fixes s
  made : ∀ e ∈ turns p .outline us s, ∀ e' ∈ turns p' .outline vs s, e'.name = e.name → ∀ k j (h : j < (old e k).length),
    σ.index k (old e k)[j] = e'.store.count k + j
  missing : ∀ k i, (runUnits p us .outline s).2.count k ≤ i → (runUnits p' vs .outline s).2.count k ≤ σ.index k i

section Outlining

variable {old : Turn → SymKind → List Nat} {σ : Renaming} (h : Outlining p p' us vs s old)
include h

theorem Outlining.exists_counterpart (he : e ∈ turns p .outline us s) : ∃ e' ∈ turns p' .outline vs s, e'.name = e.name := by
  obtain ⟨v, hv, hname⟩ := h.paired e.unit (unit_mem_of_turn he)
  obtain ⟨e', he', rfl⟩ := exists_turn p' .outline s hv
  exact ⟨e', he', hname⟩

theorem Outlining.exists_renames : ∃ σ, Outlining.Renames p p' us vs s old σ := by
  obtain ⟨σ, hfixes, hmade, hmissing⟩ := exists_renaming_turns h.names (fun e he => h.keep.below he)
    (fun e he => h.keep'.below he) (fun e he => h.exists_counterpart he) h.perm h.size h.names'
  exact ⟨σ, hfixes, hmade, hmissing⟩

/-- A symbol is from before the outline, belongs to a unit, or is missing. -/
theorem Outlining.cover (k : SymKind) (i : Nat) :
    (i < s.count k ∧ (k = .space → ⟨i⟩ ∉ roots us)) ∨ (∃ e ∈ turns p .outline us s, e.Owns p .outline k i) ∨
      (runUnits p us .outline s).2.count k ≤ i := by
  rcases Nat.lt_or_ge i (s.count k) with hi | hi
  · by_cases hroot : k = .space ∧ ⟨i⟩ ∈ roots us
    · obtain ⟨rfl, hroot⟩ := hroot
      obtain ⟨u, hu, heq⟩ := List.mem_map.mp hroot
      obtain ⟨e, he, rfl⟩ := exists_turn p .outline s hu
      exact .inr (.inl ⟨e, he, .inr ⟨rfl, congrArg NamespaceId.index heq.symm⟩⟩)
    · exact .inl ⟨hi, fun hk hmem => hroot ⟨hk, hmem⟩⟩
  · rcases Nat.lt_or_ge i ((runUnits p us .outline s).2.count k) with hlt | hge
    · obtain ⟨-, hflat⟩ := flatMap_made (k := k) fun e he => h.keep.below he
      have hmem : i ∈ List.range' (s.count k) ((runUnits p us .outline s).2.count k - s.count k) := by
        rw [List.mem_range'_1]
        omega
      rw [← hflat] at hmem
      obtain ⟨e, he, hmade⟩ := List.mem_flatMap.mp hmem
      exact .inr (.inl ⟨e, he, .inl (Turn.mem_made.mp hmade)⟩)
    · exact .inr (.inr hge)

variable (hσ : Outlining.Renames p p' us vs s old σ)
include hσ

/-- The symbols of a unit are in the store after its turn, and so are their counterparts. -/
theorem Outlining.owned (he : e ∈ turns p .outline us s) (he' : e' ∈ turns p' .outline vs s) (hname : e'.name = e.name)
    {k : SymKind} {i : Nat} (hi : e.Owns p .outline k i) :
    i < (e.after p .outline).count k ∧ σ.index k i < (e'.after p' .outline).count k := by
  rcases hi with hi | ⟨rfl, rfl⟩
  · have hmem := (h.perm e he k).mem_iff.mpr (Turn.mem_made.mpr hi)
    obtain ⟨j, hj, rfl⟩ := List.getElem_of_mem hmem
    rw [hσ.made e he e' he' hname k j hj, h.size e he e' he' hname k]
    omega
  · have hroom : e.unit.module.space.index < s.count .space :=
      h.room _ (List.mem_map.mpr ⟨_, unit_mem_of_turn he, rfl⟩)
    rw [hσ.fixes .space _ hroom]
    have hb := ((below_turns (fun e he => h.keep.below he) he).1.trans (h.keep.below he)) .space
    have hb' := ((below_turns (fun e he => h.keep'.below he) he').1.trans (h.keep'.below he')) .space
    omega

theorem Outlining.notMem_others (he : e ∈ turns p .outline us s) (he' : e' ∈ turns p' .outline vs s) (hname : e'.name = e.name)
    {n : NamespaceId} (hn : e.Owns p .outline .space n.index) :
    n ∉ otherRoots us e.name ∧ σ.space n ∉ otherRoots vs e'.name := by
  rcases hn with hn | ⟨-, hn⟩
  · -- A new namespace is no root namespace, and neither is its counterpart.
    have hmem := (h.perm e he .space).mem_iff.mpr (Turn.mem_made.mpr hn)
    have hle : s.count .space ≤ n.index := ((below_turns (fun e he => h.keep.below he) he).1 .space).trans hn.1
    have hle' : s.count .space ≤ (σ.space n).index := by
      obtain ⟨j, hj, heq⟩ := List.getElem_of_mem hmem
      have hplace := hσ.made e he e' he' hname .space j hj
      rw [heq] at hplace
      have hb := (below_turns (fun e he => h.keep'.below he) he').1 .space
      change s.count .space ≤ σ.index .space n.index
      omega
    refine ⟨fun hroot => ?_, fun hroot => ?_⟩
    · have hlt : n.index < s.count .space := h.room _ (mem_otherRoots hroot)
      omega
    · obtain ⟨v, hv, heq⟩ := List.mem_map.mp (mem_otherRoots hroot)
      have hlt : (σ.space n).index < s.count .space := heq ▸ h.room _ (h.paired' v hv)
      omega
  · obtain rfl : n = e.unit.module.space := congrArg NamespaceId.mk hn
    have hu := unit_mem_of_turn he
    have hv := unit_mem_of_turn he'
    rw [hσ.fixes.space (h.room _ (List.mem_map.mpr ⟨_, hu, rfl⟩))]
    refine ⟨notMem_otherRoots h.roots_nodup hu, ?_⟩
    have hroot := notMem_otherRoots h.roots_nodup' hv
    rwa [h.sameRoot _ hu _ hv hname] at hroot

/-- Symbols agree after the outlines if those of each unit do after its turns. -/
theorem Outlining.agrees (hs : s.Closed) (hturns : ∀ e ∈ turns p .outline us s, ∀ e' ∈ turns p' .outline vs s,
      e'.name = e.name → (e.after p .outline).Agrees σ (e.Owns p .outline) (e'.after p' .outline)) :
    (runUnits p us .outline s).2.Agrees σ (fun _ _ => True) (runUnits p' vs .outline s).2 := by
  refine Store.agrees_of_cover fun k i => ?_
  rcases h.cover k i with hi | ⟨e, he, hi⟩ | hi
  · have hroots : ∀ n ∈ roots vs, n ∈ roots us := by
      intro n hn
      obtain ⟨v, hv, rfl⟩ := List.mem_map.mp hn
      exact h.paired' v hv
    exact ⟨_, hi, hs.agrees hσ.fixes h.keep.all (h.keep'.all.mono hroots)⟩
  · obtain ⟨e', he', hname⟩ := h.exists_counterpart he
    refine ⟨_, hi, (hturns e he e' he' hname).kept (h.keep.others h.names he).2 (h.keep'.others h.names' he').2
      (fun k i hi => h.owned hσ he he' hname hi) fun n hn => h.notMem_others hσ he he' hname hn⟩
  · exact ⟨_, hi, Store.agrees_missing hσ.missing⟩

/-- Positions are the same after the outlines if those of each unit are after its turns. -/
theorem Outlining.samePositions (hturns : ∀ e ∈ turns p .outline us s, ∀ e' ∈ turns p' .outline vs s,
      e'.name = e.name → (e.after p .outline).SamePositions σ (e.Owns p .outline) (e'.after p' .outline)) :
    (runUnits p us .outline s).2.SamePositions σ (fun _ _ => True) (runUnits p' vs .outline s).2 := by
  refine Store.samePositions_of_cover fun k i => ?_
  rcases h.cover k i with hi | ⟨e, he, hi⟩ | hi
  · exact ⟨_, hi.1, Store.Kept.samePositions hσ.fixes h.keep.all h.keep'.all⟩
  · obtain ⟨e', he', hname⟩ := h.exists_counterpart he
    exact ⟨_, hi, (hturns e he e' he' hname).kept (h.keep.others h.names he).2 (h.keep'.others h.names' he').2
      fun k i hi => h.owned hσ he he' hname hi⟩
  · exact ⟨_, hi, Store.samePositions_missing hσ.missing⟩

end Outlining

end Outlines

end Weft.Analysis

/-!
## Outlines of files that have been read

A file makes as many symbols wherever its turn comes, and its new symbols under one order of the files are those under
another order with other identities.
-/

namespace Weft.Analysis

/-- A file that has been read, with a root namespace of its module in which nothing is declared yet. -/
structure FileUnit.Opens (s : Store) (u : FileUnit) : Prop where
  source : ∃ tree, u.source = .fresh tree [] []
  clean : u.Clean
  globals : u.module.globals = []
  room : u.module.space.index < s.spaces.size
  empty : (s.space u.module.space).members = .empty

section Openings

variable {σ : Renaming} {p p' : Project} {us vs : List FileUnit} {u : FileUnit} {s a a' : Store} {e e' : Turn}

/-- A file that has been read mentions no symbol but its root namespace. -/
theorem FileUnit.Opens.rename_eq (hu : u.Opens s) (hσ : σ.Fixes s) : u.rename σ = u := by
  obtain ⟨tree, hsrc⟩ := hu.source
  have hglobals := hu.globals
  have hspace := hσ.space hu.room
  obtain ⟨file, ⟨name, file', space, imports, globals⟩, diags, broken, source⟩ := u
  simp only at hsrc hglobals hspace
  subst hsrc hglobals
  simp [rename, Module.rename, Source.rename, hspace]

/-- The root namespace of a file before its turn. -/
structure Awaits (s : Store) (u : FileUnit) (a : Store) : Prop where
  below : s.Below a
  root : a.space u.module.space = s.space u.module.space

/-- A file makes as many symbols wherever its turn comes, and keeps all others but its root namespace. -/
theorem outline_grows (hu : u.Opens s) (hs : s.Closed) (ha : Awaits s u a) (ha' : Awaits s u a') :
    a.Kept [u.module.space] (outline u a).2 ∧
      ∀ k, (outline u a').2.count k = a'.count k + ((outline u a).2.count k - a.count k) := by
  obtain ⟨tree, hsrc⟩ := hu.source
  have hsize : ∀ k, (List.range' (a.count k) ((outline u a).2.count k - a.count k)).length =
      (outline u a).2.count k - a.count k := fun k => List.length_range'
  have hexists := Renaming.exists_renaming
    [⟨fun k => List.range' 0 (s.count k), fun _ => 0⟩,
      ⟨fun k => List.range' (a.count k) ((outline u a).2.count k - a.count k), fun k => a'.count k⟩]
    (M := fun k => a'.count k + ((outline u a).2.count k - a.count k)) (fun k => ?_) ?_ ?_
  · obtain ⟨σ, hσ, -⟩ := hexists
    have hfixes : σ.Fixes s := fun k i hi => by
      have h := hσ _ List.mem_cons_self k i (by simpa using hi)
      simpa using h
    have hroot := hfixes.space hu.room
    have hfits : σ.Fits u.module.space u.module.space a a' (outline u a).2 := {
      roots := hroot
      left := lt_of_lt_of_le hu.room (ha.below .space)
      right := lt_of_lt_of_le hu.room (ha'.below .space)
      shift := fun k i hle hlt => by
        have h := hσ _ (List.mem_cons_of_mem _ List.mem_cons_self) k (i - a.count k) (by simp; omega)
        simp only [List.getElem_range', Nat.one_mul, Nat.add_sub_cancel' hle] at h
        omega }
    obtain ⟨-, -, ho⟩ := outline_rename hsrc (by rw [ha.root, ha'.root, hs.space hfixes]) (by rw [ha.root, hu.empty]) hfits
    rw [hu.rename_eq hfixes] at ho
    refine ⟨ho.left, fun k => ?_⟩
    have hk := ho.size k
    have hb := ho.left.below k
    omega
  · simp only [List.flatMap_cons, List.flatMap_nil, List.append_nil]
    refine List.nodup_append.mpr ⟨List.nodup_range', List.nodup_range', fun i hi j hj => ?_⟩
    rw [List.mem_range'_1] at hi hj
    have hb := ha.below k
    omega
  · refine List.pairwise_cons.mpr ⟨fun b hb k => ?_, List.pairwise_singleton _ _⟩
    obtain rfl := List.mem_singleton.mp hb
    left
    simpa using ha'.below k
  · intro b hb k
    rcases List.mem_cons.mp hb with rfl | hb
    · have hb := ha'.below k
      simp only [List.length_range']
      omega
    · obtain rfl := List.mem_singleton.mp hb
      simp

/-- A renaming that fits the symbols of a file. -/
theorem fits_of_made (hu : u.Opens s) (ha : Awaits s u a) (ha' : Awaits s u a') (hfixes : σ.Fixes s)
    (hmade : ∀ k j, j < (outline u a).2.count k - a.count k → σ.index k (a.count k + j) = a'.count k + j) :
    σ.Fits u.module.space u.module.space a a' (outline u a).2 where
  roots := hfixes.space hu.room
  left := lt_of_lt_of_le hu.room (ha.below .space)
  right := lt_of_lt_of_le hu.room (ha'.below .space)
  shift k i hle hlt := by
    have h := hmade k (i - a.count k) (by omega)
    rw [Nat.add_sub_cancel' hle] at h
    omega

/-- Where each unit keeps everything but its root namespace at its turn, no turn comes in the way of another. -/
theorem keepOthers_of_turns (hroots : (roots us).Nodup) (hroom : ∀ u ∈ us, u.module.space.index < s.spaces.size)
    (hturn : ∀ u ∈ us, ∀ a, Awaits s u a → a.Kept [u.module.space] (outline u a).2) (ha : ∀ u ∈ us, Awaits s u a) :
    KeepOthers p .outline us a ∧ ∀ e ∈ turns p .outline us a, Awaits s e.unit e.store := by
  induction us generalizing a with
  | nil => exact ⟨nofun, nofun⟩
  | cons u us ih =>
    obtain ⟨hu, hus⟩ := List.nodup_cons.mp hroots
    have hkept := hturn u List.mem_cons_self a (ha u List.mem_cons_self)
    have hrest : ∀ v ∈ us, Awaits s v (outline u a).2 := by
      intro v hv
      have hawait := ha v (List.mem_cons_of_mem _ hv)
      refine ⟨hawait.below.trans hkept.below, (hkept.space ?_ fun hroot => hu ?_).trans hawait.root⟩
      · exact lt_of_lt_of_le (hroom v (List.mem_cons_of_mem _ hv)) (hawait.below .space)
      · exact List.mem_map.mpr ⟨v, hv, List.mem_singleton.mp hroot⟩
    obtain ⟨hkeep, hawaits⟩ := ih hus (fun v hv => hroom v (List.mem_cons_of_mem _ hv))
      (fun v hv => hturn v (List.mem_cons_of_mem _ hv)) hrest
    exact ⟨List.forall_mem_cons.mpr ⟨hkept, hkeep⟩, List.forall_mem_cons.mpr ⟨ha u List.mem_cons_self, hawaits⟩⟩

/-! ## Projects of files that have been read -/

/-- Files that have been read, of different modules, which see the same symbols. -/
structure Opened (us : List FileUnit) (s : Store) : Prop where
  closed : s.Closed
  opens : ∀ u ∈ us, u.Opens s
  names : (us.map (·.module.name)).Nodup
  roots : (roots us).Nodup

theorem Opened.perm (h : Opened us s) (hperm : us.Perm vs) : Opened vs s where
  closed := h.closed
  opens u hu := h.opens u (hperm.mem_iff.mpr hu)
  names := (hperm.map _).nodup_iff.mp h.names
  roots := (hperm.map _).nodup_iff.mp h.roots

theorem Opened.keepOthers (h : Opened us s) :
    KeepOthers p .outline us s ∧ ∀ e ∈ turns p .outline us s, Awaits s e.unit e.store :=
  keepOthers_of_turns h.roots (fun u hu => (h.opens u hu).room)
    (fun u hu _ ha => (outline_grows (h.opens u hu) h.closed ha ha).1) fun _ _ => ⟨.refl s, rfl⟩

/-- The same files are outlined in two orders. -/
theorem Opened.outlining (p p' : Project) (h : Opened us s) (hperm : us.Perm vs) :
    Outlining p p' us vs s fun e k => e.made p .outline k where
  names := h.names
  names' := (h.perm hperm).names
  roots_nodup := h.roots
  roots_nodup' := (h.perm hperm).roots
  room n hn := by
    obtain ⟨u, hu, rfl⟩ := List.mem_map.mp hn
    exact (h.opens u hu).room
  paired u hu := ⟨u, hperm.mem_iff.mp hu, rfl⟩
  paired' v hv := List.mem_map.mpr ⟨v, hperm.mem_iff.mpr hv, rfl⟩
  sameRoot u hu v hv hname := by
    obtain rfl := List.inj_on_of_nodup_map h.names (hperm.mem_iff.mpr hv) hu hname
    rfl
  keep := h.keepOthers.1
  keep' := (h.perm hperm).keepOthers.1
  perm _ _ _ := .refl _
  size e he e' he' hname k := by
    have hunit : e'.unit = e.unit :=
      List.inj_on_of_nodup_map h.names (hperm.mem_iff.mpr (unit_mem_of_turn he')) (unit_mem_of_turn he) hname
    have ha' := (h.perm hperm).keepOthers.2 e' he'
    rw [hunit] at ha'
    have hgrows := (outline_grows (h.opens _ (unit_mem_of_turn he)) h.closed (h.keepOthers.2 e he) ha').2 k
    rw [Turn.made, List.length_range']
    change (outline e'.unit e'.store).2.count k = _
    rw [hunit]
    exact hgrows

/-- After outlines in two orders, the symbols are the same under other identities, and so are the units. -/
theorem Opened.outlined (h : Opened us s) (hperm : us.Perm vs)
    (hσ : Outlining.Renames p p' us vs s (fun e k => e.made p .outline k) σ) :
    (runUnits p us .outline s).2.Agrees σ (fun _ _ => True) (runUnits p' vs .outline s).2 ∧
      (runUnits p us .outline s).2.SamePositions σ (fun _ _ => True) (runUnits p' vs .outline s).2 ∧
      ∀ e ∈ turns p .outline us s, ∀ e' ∈ turns p' .outline vs s, e'.name = e.name →
        e'.result p' .outline = (e.result p .outline).rename σ ∧
        (∀ i ∈ (e.result p .outline).items, i.In (e.Owns p .outline)) ∧
        ∀ c : ClassId, e.Owns p .outline .cls c.index → ∀ x ∈ ((e.after p .outline).cls c).members.symbols,
          x.In (e.Owns p .outline) := by
  have hturns : ∀ e ∈ turns p .outline us s, ∀ e' ∈ turns p' .outline vs s, e'.name = e.name →
      e'.result p' .outline = (e.result p .outline).rename σ ∧
        (∀ i ∈ (e.result p .outline).items, i.In (e.Owns p .outline)) ∧
        Outlined σ e.unit.module.space e.unit.module.space e.store e'.store (e.after p .outline) (e.after p .outline)
          (e'.after p' .outline) := by
    intro e he e' he' hname
    have hopens := h.opens _ (unit_mem_of_turn he)
    obtain ⟨tree, hsrc⟩ := hopens.source
    have hunit : e'.unit = e.unit :=
      List.inj_on_of_nodup_map h.names (hperm.mem_iff.mpr (unit_mem_of_turn he')) (unit_mem_of_turn he) hname
    have ha := h.keepOthers.2 e he
    have ha' := (h.perm hperm).keepOthers.2 e' he'
    rw [hunit] at ha'
    have hfits := fits_of_made hopens ha ha' hσ.fixes fun k j hj => by
      have hmade := hσ.made e he e' he' hname k j (by rw [Turn.made, List.length_range']; exact hj)
      simpa [Turn.made] using hmade
    obtain ⟨hresult, hitems, ho⟩ := outline_rename hsrc
      (by rw [ha.root, ha'.root, h.closed.space hσ.fixes]) (by rw [ha.root, hopens.empty]) hfits
    rw [hopens.rename_eq hσ.fixes] at hresult ho
    have hresult' : e'.result p' .outline = (outline e.unit e'.store).1.2 := by rw [← hunit]; rfl
    have hafter' : e'.after p' .outline = (outline e.unit e'.store).2 := by rw [← hunit]; rfl
    exact ⟨hresult'.trans hresult, hitems, hafter' ▸ ho⟩
  have houtlining := h.outlining p p' hperm
  refine ⟨houtlining.agrees hσ h.closed fun e he e' he' hname => (hturns e he e' he' hname).2.2.copied.agrees,
    houtlining.samePositions hσ fun e he e' he' hname => (hturns e he e' he' hname).2.2.copied.samePositions,
    fun e he e' he' hname => ?_⟩
  obtain ⟨hresult, hitems, ho⟩ := hturns e he e' he' hname
  exact ⟨hresult, hitems, ho.members⟩

end Openings

end Weft.Analysis
