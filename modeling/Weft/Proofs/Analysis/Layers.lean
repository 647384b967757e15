import Weft.Proofs.Analysis.Bodies
import Weft.Proofs.Typed.Scopes

/-!
# Bodies and the scopes that they show

While a function is analyzed, its body holds the variables of the blocks around the current place, and what it has
captured among those of the outermost block. A layer tells the two apart: it says which variables are declared in each
block. A name is found in a stack of bodies exactly where it stands for a variable in the scopes of their layers.
-/

namespace Weft.Analysis

open Typed (FrameScope Upval Captured Extends Located Mention visible visible_cons visible_name located)

/-! ## Variables of blocks -/

/-- The variables of one block. -/
abbrev BlockVars := List (String × LocalVar)

section Blocks

variable {blocks : List BlockVars} {v : LocalVar} {name : String}

theorem lookup_cons_var {vs : BlockVars} :
    List.lookup name ((v.name, v) :: vs) = if v.name = name then some v else vs.lookup name := by
  rw [List.lookup_cons]
  by_cases h : v.name = name
  · simp [h]
  · rw [if_neg h, beq_false_of_ne (Ne.symm h)]

/-- A variable in front of the outermost block is found where no other variable of its name is. -/
theorem find_addOutermost (hne : blocks ≠ []) (hnone : blocks.findSome? (·.lookup v.name) = none) :
    (Body.addOutermost v blocks).findSome? (·.lookup name) =
      if v.name = name then some v else blocks.findSome? (·.lookup name) := by
  fun_induction Body.addOutermost v blocks with
  | case1 => exact absurd rfl hne
  | case2 vs =>
    rw [List.findSome?_cons, List.findSome?_cons, lookup_cons_var]
    by_cases h : v.name = name
    · rw [if_pos h, if_pos h]
    · rw [if_neg h, if_neg h]
  | case3 vs rest hrest ih =>
    rw [List.findSome?_cons] at hnone
    cases hvs : vs.lookup v.name with
    | some w => simp [hvs] at hnone
    | none =>
      rw [hvs] at hnone
      rw [List.findSome?_cons, List.findSome?_cons, ih (by simpa using hrest) hnone]
      by_cases h : v.name = name
      · subst h
        rw [hvs]
      · rw [if_neg h, if_neg h]

theorem drop_addOutermost {k : Nat} (h : k < blocks.length) :
    (Body.addOutermost v blocks).drop k = Body.addOutermost v (blocks.drop k) := by
  induction blocks generalizing k with
  | nil => cases h
  | cons vs rest ih =>
    cases k with
    | zero => rfl
    | succ k =>
      cases rest with
      | nil => simp at h
      | cons ws rest =>
        rw [Body.addOutermost, List.drop_succ_cons, List.drop_succ_cons]
        · exact ih (by simpa using h)
        · simp

theorem length_addOutermost (hne : blocks ≠ []) : (Body.addOutermost v blocks).length = blocks.length := by
  fun_induction Body.addOutermost v blocks with
  | case1 => exact absurd rfl hne
  | case2 vs => rfl
  | case3 vs rest hrest ih => rw [List.length_cons, List.length_cons, ih (by simpa using hrest)]

end Blocks

/-! ## Layers -/

/-- A body with the variables that are declared in its blocks, innermost and latest first, and with all variables that
it has declared so far. -/
structure Layer where
  decls : List (List LocalVar)
  declared : List LocalVar
  body : Body

namespace Layer

/-- What a layer shows at the current place. -/
def scope (l : Layer) : FrameScope := ⟨l.decls.flatten, l.body.upvals⟩

/-- The slots of the variables of a layer. -/
def varSlots (l : Layer) : List Int := l.declared.map (·.slot) ++ l.body.upvals.map fun u => (u.dst : Int)

/-- Different slots below a number. -/
structure OwnSlots (is : List Int) (n : Nat) : Prop where
  distinct : is.Nodup
  below : ∀ i ∈ is, 0 ≤ i ∧ i < n

/-- The number is a free slot. -/
theorem OwnSlots.next {is is' : List Int} {n : Nat} (h : OwnSlots is n) (hp : is'.Perm ((n : Int) :: is)) :
    OwnSlots is' (n + 1) := by
  refine ⟨hp.nodup_iff.mpr (List.nodup_cons.mpr ⟨fun hn => Int.lt_irrefl _ (h.below _ hn).2, h.distinct⟩), fun i hi => ?_⟩
  rcases List.mem_cons.mp (hp.mem_iff.mp hi) with rfl | hi
  · omega
  · have := h.below i hi
    omega

/-- A body finds what a name stands for, at the current place and in each block around it. Its variables have slots of
their own, and its captures come from the bodies around it. -/
structure Shows (l : Layer) (outer : List FrameScope) : Prop where
  block : l.decls ≠ []
  blocks : l.body.blocks.length = l.decls.length
  finds : ∀ k < l.decls.length, ∀ name, (l.body.blocks.drop k).findSome? (·.lookup name) =
    visible (⟨(l.decls.drop k).flatten, l.body.upvals⟩ :: outer) name
  inScope : ∀ v ∈ l.decls.flatten, v ∈ l.declared
  captured : Captured outer l.body.upvals
  slots : OwnSlots l.varSlots l.body.slots

/-- One layer is another after more captures. -/
structure Grows (l l' : Layer) : Prop where
  decls : l'.decls = l.decls
  declared : l'.declared = l.declared
  upvals : l.body.upvals <+: l'.body.upvals

theorem Grows.refl (l : Layer) : l.Grows l := ⟨rfl, rfl, List.prefix_refl _⟩

theorem Grows.trans {l l' l'' : Layer} (h : l.Grows l') (h' : l'.Grows l'') : l.Grows l'' :=
  ⟨h'.decls.trans h.decls, h'.declared.trans h.declared, h.upvals.trans h'.upvals⟩

end Layer

section Scopes

variable {outer outer' : List FrameScope} {vars : List LocalVar} {upvals : List Upval} {name : String} {l : Layer}
  {v : LocalVar}

/-- What captured names stand for is all that a frame needs of the frames around it. -/
theorem visible_congr (hc : Captured outer upvals) (h : Extends outer outer') :
    visible (⟨vars, upvals⟩ :: outer') = visible (⟨vars, upvals⟩ :: outer) := by
  funext name
  rw [visible, visible]
  congr 1
  refine Option.bind_congr fun u hu => ?_
  obtain ⟨src, hsrc, -⟩ := hc.source u (List.mem_of_find?_eq_some hu)
  obtain rfl : u.name = name := by simpa using List.find?_some hu
  rw [hsrc, h hsrc]

/-- A new capture is seen where its name stood for nothing. -/
theorem visible_capture {u : Upval} (hnone : visible (⟨vars, upvals⟩ :: outer) u.name = none)
    (hsrc : visible outer u.name = some v) : visible (⟨vars, upvals ++ [u]⟩ :: outer) name =
      if u.name = name then some { v with slot := u.dst } else visible (⟨vars, upvals⟩ :: outer) name := by
  rw [visible, Option.or_eq_none_iff, hsrc] at hnone
  obtain ⟨hvars, hupvals⟩ := hnone
  have hupvals : upvals.find? (·.name = u.name) = none := by
    cases hfind : upvals.find? (·.name = u.name) with
    | none => rfl
    | some w => simp [hfind] at hupvals
  rw [visible, visible]
  dsimp only
  split
  · next h =>
    subst h
    simp [hvars, hupvals, hsrc]
  · next h =>
    have hlast : [u].find? (·.name = name) = none := by simpa using h
    rw [List.find?_append, hlast, Option.or_none]

namespace Layer.Shows

theorem find? (h : l.Shows outer) : l.body.find? name = visible (l.scope :: outer) name := by
  have := h.finds 0 (List.length_pos_iff.mpr h.block) name
  simpa [Body.find?, scope] using this

/-- Only what a body captures matters of the bodies around it. -/
theorem mono (h : l.Shows outer) (hext : Extends outer outer') : l.Shows outer' where
  block := h.block
  blocks := h.blocks
  finds k hk name := by rw [h.finds k hk, visible_congr h.captured hext]
  inScope := h.inScope
  captured := h.captured.mono hext
  slots := h.slots

theorem slot_nonneg (h : l.Shows outer) (hv : visible (l.scope :: outer) name = some v) : 0 ≤ v.slot := by
  rcases visible_cons.mp hv with hv | ⟨-, u, src, -, -, rfl⟩
  · have hmem := h.inScope v (List.mem_of_find?_eq_some hv)
    exact (h.slots.below v.slot (List.mem_append_left _ (List.mem_map_of_mem hmem))).1
  · exact Int.natCast_nonneg _

/-- A variable is captured when it is found in the bodies around this one and not in it. -/
theorem capture (h : l.Shows outer) (hnone : l.body.find? v.name = none) (hsrc : visible outer v.name = some v)
    (hslot : 0 ≤ v.slot) : Layer.Shows { l with body := (l.body.capture v).2 } outer where
  block := h.block
  blocks := by
    refine (length_addOutermost ?_).trans h.blocks
    exact List.ne_nil_of_length_pos (h.blocks ▸ List.length_pos_iff.mpr h.block)
  finds k hk name := by
    have hlen : k < l.body.blocks.length := h.blocks ▸ hk
    have hdrop : (l.body.blocks.drop k).findSome? (·.lookup v.name) = none := by
      refine List.findSome?_eq_none_iff.mpr fun vs hvs => ?_
      exact List.findSome?_eq_none_iff.mp hnone vs (List.mem_of_mem_drop hvs)
    have hold := h.finds k hk
    rw [hold] at hdrop
    have hne : l.body.blocks.drop k ≠ [] := by simpa using hlen
    dsimp only [Body.capture]
    rw [drop_addOutermost hlen]
    refine (find_addOutermost hne ?_).trans ?_
    · exact (hold v.name).trans hdrop
    · rw [hold, visible_capture (v := v) hdrop hsrc]
  inScope := h.inScope
  captured := by
    have hnew : v.name ∉ l.body.upvals.map Upval.name := by
      rw [h.find?] at hnone
      intro hmem
      obtain ⟨u, hu, hname⟩ := List.mem_map.mp hmem
      exact h.captured.visible_ne_none hu (show visible (l.scope :: outer) u.name = none from hname ▸ hnone)
    refine ⟨?_, fun u hu => ?_⟩
    · dsimp only [Body.capture]
      rw [List.map_append, List.map_singleton, ← List.concat_eq_append]
      exact (List.nodup_concat _ _).mpr ⟨hnew, h.captured.once⟩
    · rcases List.mem_append.mp hu with hu | hu
      · exact h.captured.source u hu
      · obtain rfl := List.mem_singleton.mp hu
        exact ⟨v, hsrc, (Int.toNat_of_nonneg hslot).symm⟩
  slots := by
    refine h.slots.next ?_
    dsimp only [Layer.varSlots, Body.capture]
    rw [List.map_append, ← List.append_assoc]
    exact List.perm_append_singleton _ _

/-- A declared variable takes the next slot and is the innermost of its name. -/
theorem add {d : List LocalVar} {rest : List (List LocalVar)} (h : l.Shows outer) (hd : l.decls = d :: rest)
    (hv : v.slot = l.body.slots) : Layer.Shows ⟨(v :: d) :: rest, v :: l.declared, l.body.add v⟩ outer := by
  have hlen : l.body.blocks.length = rest.length + 1 := by rw [h.blocks, hd, List.length_cons]
  obtain ⟨vs, bs, hbs⟩ := List.exists_cons_of_length_eq_add_one hlen
  have hadd : (l.body.add v).blocks = ((v.name, v) :: vs) :: bs := by rw [Body.add, hbs]
  have hfinds := h.finds
  rw [hd, hbs] at hfinds
  refine ⟨List.cons_ne_nil _ _, ?_, fun k hk name => ?_, ?_, ?_, ?_⟩
  · rw [hadd, List.length_cons, List.length_cons, ← hlen, hbs, List.length_cons]
  · rw [hadd, Body.add_upvals]
    cases k with
    | zero =>
      have hhead := hfinds 0 (Nat.succ_pos _) name
      rw [List.drop_zero, List.drop_zero, List.findSome?_cons] at hhead ⊢
      rw [lookup_cons_var, List.flatten_cons, List.cons_append, visible, List.find?_cons]
      by_cases hname : v.name = name
      · simp [hname]
      · simpa [hname, visible] using hhead
    | succ k => exact hfinds (k + 1) hk name
  · intro w hw
    have hscope := h.inScope
    rw [hd] at hscope
    rcases List.mem_cons.mp hw with rfl | hw
    · exact List.mem_cons_self
    · exact List.mem_cons_of_mem _ (hscope w hw)
  · rw [Body.add_upvals]
    exact h.captured
  · rw [Body.add_slots]
    refine h.slots.next ?_
    dsimp only [Layer.varSlots]
    rw [Body.add_upvals, List.map_cons, List.cons_append, hv]

/-- A block inside. -/
theorem push (h : l.Shows outer) :
    Layer.Shows ⟨[] :: l.decls, l.declared, { l.body with blocks := [] :: l.body.blocks }⟩ outer := by
  refine ⟨List.cons_ne_nil _ _, ?_, fun k hk name => ?_, h.inScope, h.captured, h.slots⟩
  · rw [List.length_cons, List.length_cons, h.blocks]
  · cases k with
    | zero => exact h.finds 0 (List.length_pos_iff.mpr h.block) name
    | succ k => exact h.finds k (by simpa using hk) name

/-- Leaving a block. -/
theorem pop {d : List LocalVar} {rest : List (List LocalVar)} (h : l.Shows outer) (hd : l.decls = d :: rest)
    (hrest : rest ≠ []) : Layer.Shows ⟨rest, l.declared, { l.body with blocks := l.body.blocks.tail }⟩ outer := by
  have hfinds := h.finds
  have hscope := h.inScope
  have hlen := h.blocks
  rw [hd] at hfinds hscope hlen
  refine ⟨hrest, ?_, fun k hk name => ?_, ?_, h.captured, h.slots⟩
  · rw [List.length_tail, hlen, List.length_cons, Nat.add_sub_cancel]
  · dsimp only
    rw [List.drop_tail]
    exact hfinds (k + 1) (by simpa using hk) name
  · exact fun v hv => hscope v (List.mem_append_right _ hv)

end Layer.Shows

end Scopes

/-! ## Stacks of layers -/

/-- What the layers around a place show there. -/
abbrev scopesOf (ls : List Layer) : List FrameScope := ls.map Layer.scope

/-- Each layer shows what names stand for in it and in those around it. -/
def Layered : List Layer → Prop
  | [] => True
  | l :: ls => l.Shows (scopesOf ls) ∧ Layered ls

section Layered

variable {ls ls' : List Layer} {name : String} {v : LocalVar}

theorem grows_refl (ls : List Layer) : List.Forall₂ Layer.Grows ls ls := List.forall₂_same.mpr fun l _ => .refl l

theorem grows_trans {ls'' : List Layer} (h : List.Forall₂ Layer.Grows ls ls') (h' : List.Forall₂ Layer.Grows ls' ls'') :
    List.Forall₂ Layer.Grows ls ls'' := by
  induction h generalizing ls'' with
  | nil => exact h'
  | cons hl _ ih =>
    cases h' with
    | cons hl' h' => exact .cons (hl.trans hl') (ih h')

theorem extends_scopes (h : List.Forall₂ Layer.Grows ls ls') : Extends (scopesOf ls) (scopesOf ls') := by
  induction h with
  | nil => exact .refl _
  | @cons l l' ls ls' hl _ ih =>
    have hscope : l'.scope = ⟨l.decls.flatten, l'.body.upvals⟩ := by rw [Layer.scope, hl.decls]
    rw [scopesOf, scopesOf, List.map_cons, List.map_cons, hscope]
    exact ih.capture hl.upvals

theorem Layered.slot_nonneg (h : Layered ls) (hv : visible (scopesOf ls) name = some v) : 0 ≤ v.slot := by
  cases ls with
  | nil => cases hv
  | cons l ls => exact h.1.slot_nonneg hv

/-- A variable that is found is the one that its name stands for, after every body between has captured it. -/
theorem Layered.findVar (h : Layered ls) {bodies : List Body}
    (hfind : findVar name (ls.map Layer.body) = some (v, bodies)) : ∃ ls', bodies = ls'.map Layer.body ∧ Layered ls' ∧
      List.Forall₂ Layer.Grows ls ls' ∧ visible (scopesOf ls') name = some v := by
  induction ls generalizing v bodies with
  | nil => cases hfind
  | cons l ls ih =>
    rw [List.map_cons, Analysis.findVar] at hfind
    split at hfind
    · next x hx =>
      cases hfind
      exact ⟨l :: ls, rfl, h, .cons (.refl _) (grows_refl _), h.1.find?.symm.trans hx⟩
    · next hnone =>
      split at hfind
      · cases hfind
      · next src outer hsrc =>
        cases hfind
        obtain ⟨ls', rfl, hls', hgrows, hvisible⟩ := ih h.2 hsrc
        obtain rfl : src.name = name := visible_name hvisible
        have hshows := h.1.mono (extends_scopes hgrows)
        refine ⟨{ l with body := (l.body.capture src).2 } :: ls', rfl, ⟨?_, hls'⟩, .cons ⟨rfl, rfl, ?_⟩ hgrows, ?_⟩
        · exact hshows.capture hnone hvisible (hls'.slot_nonneg hvisible)
        · exact List.prefix_append _ _
        · rw [hshows.find?] at hnone
          exact (visible_capture hnone hvisible).trans (if_pos rfl)

end Layered

end Weft.Analysis
