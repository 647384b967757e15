import Weft.Proofs.Bytecode.Running
import Weft.Proofs.Renaming.Programs

/-!
# Compiling programs of renamed symbols

The compiler uses the identity of a symbol only to find out what the store says of it, and to know the functions of
the module again. A program with other identities is therefore compiled to the same module.
-/

namespace Weft

/-- The second store says of renamed symbols what the first says of the symbols, slots and positions included. -/
structure Store.Places (σ : Renaming) (s s' : Store) : Prop extends s.Mirrors σ s' where
  funcIndex : ∀ f, (s'.func (σ.func f)).index = (s.func f).index
  fieldIndex : ∀ f, (s'.field (σ.field f)).index = (s.field f).index

namespace Store.Places

variable {σ : Renaming} {s s' : Store}

theorem func_eq (h : s.Places σ s') (f : FuncId) : s'.func (σ.func f) = (s.func f).rename σ := by
  obtain ⟨index, hf⟩ := h.func f
  have hindex := h.funcIndex f
  rw [hf] at hindex ⊢
  exact congrArg (fun index => { (s.func f).rename σ with index }) hindex

theorem field_eq (h : s.Places σ s') (f : FieldId) : s'.field (σ.field f) = (s.field f).rename σ := by
  obtain ⟨index, hf⟩ := h.field f
  have hindex := h.fieldIndex f
  rw [hf] at hindex ⊢
  exact congrArg (fun index => { (s.field f).rename σ with index }) hindex

/-- Symbols are stored in the same form. -/
theorem exportDepth (h : s.Places σ s') (d : Nat) (a : Sym) : s'.exportDepth d (a.rename σ) = s.exportDepth d a := by
  induction d generalizing a with
  | zero => rfl
  | succ d ih =>
    have hmembers : ∀ t : Table, (t.rename σ).symbols.filterMap (s'.exportDepth d) =
        t.symbols.filterMap (s.exportDepth d) := by
      intro t
      rw [Table.symbols_rename, List.filterMap_map]
      exact congrArg (List.filterMap · t.symbols) (funext ih)
    have hrecord := recordType_rename h.named
    unfold Store.exportDepth
    cases a with
    | space n => simp only [Sym.rename, h.space, Namespace.rename, hmembers]
    | func f =>
      have hsig := hrecord ((s.func f).sig.map .func)
      simp only [Option.map_map] at hsig
      simp only [Sym.rename, h.func_eq, Func.rename, Option.map_map]
      rw [← hsig]
      rfl
    | global g => simp [Sym.rename, h.global, Global.rename, hrecord]
    | field f => simp [Sym.rename, h.field_eq, Field.rename, hrecord]
    | cls c =>
      obtain ⟨_, _, _, hc⟩ := h.cls c
      have hsuper : ∀ b, (Ty.cls (σ.cls b)).record s' = (Ty.cls b).record s := fun b => Ty.record_rename h.named (.cls b)
      have hiface : ∀ i, (Ty.iface (σ.iface i)).record s' = (Ty.iface i).record s :=
        fun i => Ty.record_rename h.named (.iface i)
      simp only [Sym.rename, hc, Class.rename, hmembers, Option.isSome_map, List.map_map, Function.comp_def, hiface]
      cases (s.cls c).super with
      | none => rfl
      | some b => simp [hsuper]
    | iface i =>
      have hiface : ∀ i, (Ty.iface (σ.iface i)).record s' = (Ty.iface i).record s :=
        fun i => Ty.record_rename h.named (.iface i)
      simp only [Sym.rename, h.iface, Interface.rename, hmembers, List.map_map, Function.comp_def, hiface]
    | enumeration e =>
      simp only [Sym.rename, h.enumeration, Enum.rename, Table.symbols_rename, List.filterMap_map]
      congr 3
      funext a
      cases a <;> rfl
    | _ => rfl

/-- A module has the same record. -/
theorem exportModule (h : s.Places σ s') (hspaces : s'.spaces.size = s.spaces.size) {m m' : Module}
    (hroot : m'.space = σ.space m.space) (hglobals : m'.globals.length = m.globals.length) : s'.exportModule m' =
      s.exportModule m := by
  unfold Store.exportModule
  rw [hroot, hglobals, hspaces, h.space, Namespace.rename, Table.symbols_rename, List.filterMap_map]
  exact congrArg (fun f => NamespaceRecord.mk (List.filterMap f _) _) (funext (h.exportDepth _))

end Store.Places

namespace Bytecode

open Typed (Expr Chain Call Append Lambda Frame VarDecl Stmt Block Arm)

/-- What is known while a module is compiled, with other identities. -/
def Lowering.rename (σ : Renaming) (l : Lowering) : Lowering :=
  { l with entries := l.entries.map fun e => (σ.func e.1, e.2),
           direct := l.direct.map fun d => { d with func := σ.func d.func } }

/-- The second computation does in the second module what the first does in the first, with other identities. -/
def Lowers (σ : Renaming) (c c' : Store × Module) {α : Type} (m m' : Lower α) : Prop :=
  ∀ l, @Eq (Except Violation α × Lowering) (m' c' (l.rename σ)) ((m c l).1, (m c l).2.rename σ)

/-- Two modules of one name, each with its store, that differ in the identities of symbols. -/
structure Corresponds (σ : Renaming) (c c' : Store × Module) : Prop where
  places : c.1.Places σ c'.1
  name : c'.2.name = c.2.name

section Monad

variable {σ : Renaming} {c c' : Store × Module} {α β ι : Type}

theorem lowers_pure {a : α} : Lowers σ c c' (pure a) (pure a) := fun _ => rfl

theorem lowers_throw {e : Violation} : Lowers σ c c' (throw e : Lower α) (throw e) := fun _ => rfl

/-- What a sequence does after its first part. -/
theorem lower_bind_run {m : Lower α} {k : α → Lower β} {c : Store × Module} {l l₁ : Lowering}
    {r : Except Violation α} (h : @Eq (Except Violation α × Lowering) (m c l) (r, l₁)) :
    @Eq (Except Violation β × Lowering) ((m >>= k) c l) (r.casesOn (fun e => (.error e, l₁)) fun a => k a c l₁) := by
  change (match (m c l : Except Violation α × Lowering) with
    | (r, l₁) => ExceptT.bindCont (fun a => k a c) r l₁) = _
  rw [h]
  cases r <;> rfl

theorem Lowers.bind {m m' : Lower α} {k k' : α → Lower β} (hm : Lowers σ c c' m m')
    (hk : ∀ a, Lowers σ c c' (k a) (k' a)) : Lowers σ c c' (m >>= k) (m' >>= k') := by
  intro l
  have hl := hm l
  rcases h : (m c l : Except Violation α × Lowering) with ⟨r, l₁⟩
  rw [h] at hl
  rw [lower_bind_run h, lower_bind_run hl]
  cases r with
  | error e => rfl
  | ok a => exact hk a l₁

theorem Lowers.result {m m' : Lower α} (h : Lowers σ c c' m m') (l : Lowering) :
    @Prod.fst (Except Violation α) Lowering (m' c' (l.rename σ)) = @Prod.fst (Except Violation α) Lowering (m c l) := by
  rw [h l]

theorem lowers_get_bind {k k' : Lowering → Lower β} (hk : ∀ l, Lowers σ c c' (k l) (k' (l.rename σ))) :
    Lowers σ c c' (getThe Lowering >>= k) (getThe Lowering >>= k') := fun l => hk l l

theorem lowers_modify {f f' : Lowering → Lowering} (hf : ∀ l, f' (l.rename σ) = (f l).rename σ) :
    Lowers σ c c' (modifyThe Lowering f) (modifyThe Lowering f') := by
  intro l
  change @Eq (Except Violation PUnit × Lowering) (.ok ⟨⟩, f' (l.rename σ)) _
  rw [hf]
  rfl

theorem lowers_store_bind {k k' : Store → Lower β} (hk : Lowers σ c c' (k c.1) (k' c'.1)) :
    Lowers σ c c' (Lower.store >>= k) (Lower.store >>= k') := hk

theorem lowers_moduleName_bind {k k' : String → Lower β} (hk : Lowers σ c c' (k c.2.name) (k' c'.2.name)) :
    Lowers σ c c' (Lower.moduleName >>= k) (Lower.moduleName >>= k') := hk

theorem lowers_ite {p : Prop} [Decidable p] {m n m' n' : Lower α} (hm : Lowers σ c c' m m')
    (hn : Lowers σ c c' n n') : Lowers σ c c' (if p then m else n) (if p then m' else n') := by
  split
  · exact hm
  · exact hn

theorem lowers_forM {k k' : ι → Lower PUnit} (xs : List ι) (hk : ∀ x ∈ xs, Lowers σ c c' (k x) (k' x)) :
    Lowers σ c c' (xs.forM k) (xs.forM k') := by
  induction xs with
  | nil => exact lowers_pure
  | cons x xs ih =>
    rw [List.forM_eq_forM, List.forM_cons, List.forM_cons]
    refine (hk x List.mem_cons_self).bind fun _ => ?_
    exact ih fun y hy => hk y (List.mem_cons_of_mem _ hy)

end Monad

/-! ## Steps -/

section Steps

variable {σ : Renaming} {c c' : Store × Module} {α : Type} {sec : Section} {line : Nat}

theorem lowers_assemble {m : Assemble α} : Lowers σ c c' (Lower.assemble m) (Lower.assemble m) := by
  unfold Lower.assemble
  refine lowers_get_bind fun l => ?_
  have hasm : (l.rename σ).asm = l.asm := rfl
  rw [hasm]
  generalize m l.asm = r
  obtain ⟨r, asm⟩ := r
  refine Lowers.bind (lowers_modify ?_) fun _ => ?_
  · exact fun _ => rfl
  cases r with
  | ok a => exact lowers_pure
  | error e => exact lowers_throw

theorem lowers_emit {op : Opcode} {operands : List Int} :
    Lowers σ c c' (Lower.emit sec op line operands) (Lower.emit sec op line operands) := lowers_assemble

theorem lowers_put {op : Opcode} {operands : List Int} :
    Lowers σ c c' (Lower.put sec op line operands) (Lower.put sec op line operands) :=
  lowers_emit.bind fun _ => lowers_pure

theorem lowers_mark : Lowers σ c c' (Lower.mark sec line) (Lower.mark sec line) := lowers_assemble

theorem lowers_offset {src dst : Nat} {operand : Int} :
    Lowers σ c c' (Lower.offset sec src dst operand) (Lower.offset sec src dst operand) := lowers_assemble

theorem lowers_constant {x : Constant} : Lowers σ c c' (Lower.constant x) (Lower.constant x) := by
  unfold Lower.constant
  refine lowers_get_bind fun l => ?_
  refine Lowers.bind (lowers_modify ?_) fun _ => lowers_pure
  exact fun _ => rfl

variable (h : Corresponds σ c c')
include h

theorem typeModule_rename (t : Ty) : Lower.typeModule c'.1 (t.rename σ) = Lower.typeModule c.1 t := by
  cases t with
  | cls d =>
    obtain ⟨_, _, _, hd⟩ := h.places.cls d
    simp [Lower.typeModule, hd, Class.rename]
  | iface i => simp [Lower.typeModule, h.places.iface, Interface.rename]
  | enumeration e => simp [Lower.typeModule, h.places.enumeration, Enum.rename]
  | _ => simp [Lower.typeModule]

theorem lowers_typeConstant (t : Option Ty) :
    Lowers σ c c' (Lower.typeConstant t) (Lower.typeConstant (t.map (Ty.rename σ))) := by
  unfold Lower.typeConstant
  cases t with
  | none => exact lowers_throw
  | some t =>
    refine lowers_store_bind ?_
    rw [typeModule_rename h, Ty.typeName_rename h.places.named]
    exact lowers_constant

theorem lowers_funcConstant (f : FuncId) :
    Lowers σ c c' (Lower.funcConstant (c.1.func f)) (Lower.funcConstant (c'.1.func (σ.func f))) := by
  obtain ⟨_, hf⟩ := h.places.func f
  rw [hf]
  exact lowers_constant

theorem func_native (f : FuncId) : (c'.1.func (σ.func f)).native = (c.1.func f).native := by
  obtain ⟨_, hf⟩ := h.places.func f
  rw [hf]
  rfl

theorem func_module (f : FuncId) : (c'.1.func (σ.func f)).module = (c.1.func f).module := by
  obtain ⟨_, hf⟩ := h.places.func f
  rw [hf]
  rfl

theorem lowers_global {g : GlobalId} {own imported : Opcode} :
    Lowers σ c c' (Lower.global sec line g own imported) (Lower.global sec line (σ.global g) own imported) := by
  unfold Lower.global
  refine lowers_store_bind (lowers_moduleName_bind ?_)
  rw [h.places.global, h.name]
  exact lowers_ite lowers_put (lowers_constant.bind fun _ => lowers_put)

theorem lowers_callFunc {f : FuncId} {bits : Int} {args args' : Lower PUnit} (hargs : Lowers σ c c' args args') :
    Lowers σ c c' (Lower.callFunc sec line f bits args) (Lower.callFunc sec line (σ.func f) bits args') := by
  unfold Lower.callFunc
  refine lowers_store_bind ?_
  simp only [func_native h, func_module h, h.places.funcIndex]
  refine lowers_ite (hargs.bind fun _ => lowers_put) ?_
  refine (lowers_funcConstant h f).bind fun i => ?_
  refine lowers_emit.bind fun get => ?_
  refine hargs.bind fun _ => ?_
  refine lowers_emit.bind fun call => lowers_moduleName_bind ?_
  rw [h.name]
  refine lowers_ite (lowers_modify fun l => ?_) lowers_pure
  simp [Lowering.rename]

/-- An access is compiled to the same code. -/
theorem lowers_access (a : Typed.Access) {bits : Int} {children children' : Lower PUnit}
    (hkids : Lowers σ c c' children children') :
    Lowers σ c c' (Lower.access sec line a bits children) (Lower.access sec line (a.rename σ) bits children') := by
  have hafter : ∀ {op : Opcode} {vs : List Int}, Lowers σ c c' (children >>= fun _ => Lower.put sec op line vs)
      (children' >>= fun _ => Lower.put sec op line vs) := hkids.bind fun _ => lowers_put
  unfold Lower.access
  refine lowers_store_bind ?_
  cases a with
  | readVar v => exact lowers_put
  | writeVar v => exact hafter
  | varRef v => exact lowers_put
  | readGlobal g => exact lowers_global h
  | writeGlobal g => exact hkids.bind fun _ => lowers_global h
  | readField f =>
    simp only [Typed.Access.rename, h.places.field_native, h.places.fieldIndex]
    exact lowers_ite lowers_put lowers_put
  | readNative slot => exact lowers_put
  | writeField f =>
    simp only [Typed.Access.rename, h.places.fieldIndex]
    exact hafter
  | initField f =>
    simp only [Typed.Access.rename, h.places.fieldIndex]
    exact hafter
  | func f => exact lowers_callFunc h hkids
  | funcRef f =>
    simp only [Typed.Access.rename, func_native h, h.places.funcIndex]
    exact lowers_ite lowers_put ((lowers_funcConstant h f).bind fun _ => lowers_put)
  | method f =>
    simp only [Typed.Access.rename, func_native h, h.places.funcIndex]
    refine hkids.bind fun _ => ?_
    exact lowers_ite lowers_put ((lowers_funcConstant h f).bind fun _ => lowers_put)
  | methodNative slot => exact hafter
  | methodVirtual f =>
    simp only [Typed.Access.rename, h.places.funcIndex]
    exact hafter
  | methodIface f =>
    simp only [Typed.Access.rename, h.places.funcIndex, h.places.func_owner, h.places.func_name]
    refine hkids.bind fun _ => ?_
    cases (c.1.func f).owner with
    | none => exact lowers_throw
    | some o =>
      cases o with
      | iface i => exact (lowers_typeConstant h (some (.iface i))).bind fun _ => lowers_put
      | _ => exact lowers_throw
  | funcPtr => exact hafter
  | arrayGet => exact hafter
  | arraySet => exact hafter
  | mapGet => exact hafter
  | mapSet => exact hafter

end Steps

/-! ## The shape of trees -/

section Shape

variable (σ : Renaming)

mutual

theorem hasParallel_rename : (x : Stmt) → hasParallel (x.rename σ) = hasParallel x
  | .block b => by rw [Stmt.rename, hasParallel, hasParallel, blockHasParallel_rename b]
  | .expr _ | .discard .. | .var _ | .ret .. | .brk _ | .cont _ | .yield _ => by
    simp only [Stmt.rename, hasParallel]

theorem blockHasParallel_rename : (b : Block) → blockHasParallel (b.rename σ) = blockHasParallel b
  | .group _ k ss => by rw [Block.rename, blockHasParallel, blockHasParallel, someParallel_rename ss]
  | .cond _ arms none => by rw [Block.rename, blockHasParallel, blockHasParallel, armsHaveParallel_rename arms]
  | .cond _ arms (some b) => by
    rw [Block.rename, blockHasParallel, blockHasParallel, armsHaveParallel_rename arms, blockHasParallel_rename b]
  | .whileLoop _ _ b none => by rw [Block.rename, blockHasParallel, blockHasParallel, blockHasParallel_rename b]
  | .whileLoop _ _ b (some post) => by
    rw [Block.rename, blockHasParallel, blockHasParallel, blockHasParallel_rename b, blockHasParallel_rename post]
  | .doLoop _ b _ => by rw [Block.rename, blockHasParallel, blockHasParallel, blockHasParallel_rename b]

theorem someParallel_rename : (ss : List Stmt) → someParallel (Typed.renameStmts σ ss) = someParallel ss
  | [] => rfl
  | s :: ss => by rw [Typed.renameStmts, someParallel, someParallel, hasParallel_rename s, someParallel_rename ss]

theorem armsHaveParallel_rename : (arms : List Arm) → armsHaveParallel (Typed.renameArms σ arms) = armsHaveParallel arms
  | [] => rfl
  | ⟨_, b⟩ :: arms => by
    rw [Typed.renameArms, armsHaveParallel, armsHaveParallel, blockHasParallel_rename b, armsHaveParallel_rename arms]

end

theorem isDefer_rename (x : Stmt) : isDefer (x.rename σ) = isDefer x := by
  cases x with
  | block b =>
    cases b with
    | group line kind ss => cases kind <;> simp [isDefer]
    | _ => simp [isDefer]
  | _ => simp [isDefer]

theorem isSeqOrDefer_rename (x : Stmt) : isSeqOrDefer (x.rename σ) = isSeqOrDefer x := by
  cases x with
  | block b =>
    cases b with
    | group line kind ss => cases kind <;> simp [isSeqOrDefer]
    | _ => simp [isSeqOrDefer]
  | _ => simp [isSeqOrDefer]

theorem any_isDefer_rename (ss : List Stmt) : (Typed.renameStmts σ ss).any isDefer = ss.any isDefer := by
  rw [Typed.renameStmts_eq_map, List.any_map]
  exact congrArg _ (funext fun x => isDefer_rename σ x)

theorem isEmpty_renameArms (arms : List Arm) : (Typed.renameArms σ arms).isEmpty = arms.isEmpty := by
  rw [Typed.renameArms_eq_map, List.isEmpty_map]

theorem firstDefault_rename (ps : List VarDecl) : Lower.firstDefault (Typed.renameVars σ ps) = Lower.firstDefault ps := by
  have hinit : ((fun d : VarDecl => d.init.isSome) ∘ VarDecl.rename σ) = fun d => d.init.isSome := by
    funext d
    obtain ⟨line, v, init⟩ := d
    cases init <;> simp
  rw [Lower.firstDefault, Lower.firstDefault, Typed.renameVars_eq_map, List.findIdx?_map, List.length_map, hinit]

theorem lastLine_rename (fr : Frame) : Lower.lastLine (fr.rename σ) = Lower.lastLine fr := by
  obtain ⟨slots, ps, line, body⟩ := fr
  simp only [Lower.lastLine, Frame.rename_mk, List.getLast?_map]
  cases body.getLast? <;> simp

end Shape

/-! ## Trees -/

section Trees

variable {σ : Renaming} {c c' : Store × Module} {sec : Section} {line : Nat}

theorem lowers_closed {m m' : Lower PUnit} (hm : Lowers σ c c' m m') :
    Lowers σ c c' (Lower.closed sec line m) (Lower.closed sec line m') := by
  unfold Lower.closed
  refine lowers_get_bind fun l => ?_
  refine Lowers.bind (lowers_modify ?_) fun _ => ?_
  · exact fun _ => rfl
  refine hm.bind fun _ => ?_
  refine Lowers.bind (lowers_modify ?_) fun _ => ?_
  · exact fun _ => rfl
  refine lowers_get_bind fun l => ?_
  have hasm : (l.rename σ).asm = l.asm := rfl
  rw [hasm]
  generalize l.asm = asm
  simp only []
  cases (asm.stream sec).order.back? with
  | none => exact lowers_put
  | some n => exact lowers_ite lowers_pure lowers_put

theorem lowers_inLoop {m m' : Lower PUnit} (hm : Lowers σ c c' m m') :
    Lowers σ c c' (Lower.inLoop m) (Lower.inLoop m') := by
  unfold Lower.inLoop
  refine Lowers.bind (lowers_modify ?_) fun _ => hm
  exact fun _ => rfl

theorem lowers_waitLoop {f : Loop → Loop} : Lowers σ c c' (Lower.waitLoop f) (Lower.waitLoop f) := by
  unfold Lower.waitLoop
  refine lowers_get_bind fun l => ?_
  have hloops : (l.rename σ).loops = l.loops := rfl
  rw [hloops]
  cases l.loops with
  | nil => exact lowers_throw
  | cons x rest => exact lowers_modify fun _ => rfl

theorem lowers_leaveLoop {exit next : Nat} :
    Lowers σ c c' (Lower.leaveLoop sec exit next) (Lower.leaveLoop sec exit next) := by
  unfold Lower.leaveLoop
  refine lowers_get_bind fun l => ?_
  have hloops : (l.rename σ).loops = l.loops := rfl
  rw [hloops]
  cases l.loops with
  | nil => exact lowers_pure
  | cons x rest =>
    refine Lowers.bind (lowers_modify ?_) fun _ => ?_
    · exact fun _ => rfl
    refine (lowers_forM _ fun _ _ => lowers_offset).bind fun _ => ?_
    exact lowers_forM _ fun _ _ => lowers_offset

/-- A loop that tests before its body, from its end on. -/
theorem lowers_loopEnd {top jz next : Nat} : Lowers σ c c'
    (do
      let back ← Lower.emit sec .jump line [0]
      Lower.offset sec back top 0
      let exit ← Lower.mark sec line
      Lower.offset sec jz exit 0
      Lower.leaveLoop sec exit next : Lower PUnit)
    (do
      let back ← Lower.emit sec .jump line [0]
      Lower.offset sec back top 0
      let exit ← Lower.mark sec line
      Lower.offset sec jz exit 0
      Lower.leaveLoop sec exit next : Lower PUnit) := by
  refine lowers_emit.bind fun back => lowers_offset.bind fun _ => ?_
  exact lowers_mark.bind fun exit => lowers_offset.bind fun _ => lowers_leaveLoop

mutual

theorem lowers_expr (h : Corresponds σ c c') : (x : Expr) → Lowers σ c c' (Lower.expr sec x) (Lower.expr sec (x.rename σ))
  | .literal line v _ => by
    simp only [Expr.rename, Lower.expr]
    exact lowers_constant.bind fun _ => lowers_put
  | .unary line op _ x => by
    simp only [Expr.rename, Lower.expr]
    exact (lowers_expr h x).bind fun _ => lowers_put
  | .binary line op _ x y => by
    have hjump : Lowers σ c c'
        (do
          let j ← Lower.emit sec (Lower.binaryOpcode op) line [0]
          Lower.expr sec y
          Lower.offset sec j (← Lower.mark sec line) 0)
        (do
          let j ← Lower.emit sec (Lower.binaryOpcode op) line [0]
          Lower.expr sec (y.rename σ)
          Lower.offset sec j (← Lower.mark sec line) 0) := by
      refine lowers_emit.bind fun j => ?_
      exact (lowers_expr h y).bind fun _ => lowers_mark.bind fun _ => lowers_offset
    simp only [Expr.rename, Lower.expr]
    refine (lowers_expr h x).bind fun _ => ?_
    cases op with
    | and => exact hjump
    | or => exact hjump
    | _ => exact (lowers_expr h y).bind fun _ => lowers_put
  | .chain ⟨_, _, _, links⟩ => by
    simp only [Expr.rename, Chain.rename, Lower.expr]
    exact lowers_exprs h links
  | .call x => by
    simp only [Expr.rename, Lower.expr]
    exact lowers_call h x
  | .cast line kind t x => by
    simp only [Expr.rename, Lower.expr]
    refine (lowers_expr h x).bind fun _ => ?_
    exact (lowers_typeConstant h t).bind fun _ => lowers_put
  | .new line t inits => by
    simp only [Expr.rename, Lower.expr]
    refine (lowers_typeConstant h t).bind fun _ => lowers_put.bind fun _ => ?_
    exact lowers_calls h inits
  | .collection line t items => by
    simp only [Expr.rename, Lower.expr]
    refine (lowers_typeConstant h (some t)).bind fun _ => lowers_put.bind fun _ => ?_
    exact lowers_appends h items
  | .lambda fn => by
    simp only [Expr.rename, Lower.expr]
    exact lowers_lambda h fn

theorem lowers_exprs (h : Corresponds σ c c') : (xs : List Expr) → Lowers σ c c' (Lower.exprs sec xs)
    (Lower.exprs sec (Typed.renameExprs σ xs))
  | [] => lowers_pure
  | x :: xs => by
    simp only [Typed.renameExprs, Lower.exprs]
    exact (lowers_expr h x).bind fun _ => lowers_exprs h xs

theorem lowers_call (h : Corresponds σ c c') : (x : Call) → Lowers σ c c' (Lower.call sec x) (Lower.call sec (x.rename σ))
  | ⟨line, a, _, _, args, _, children⟩ => by
    simp only [Call.rename, Lower.call]
    exact lowers_access h a (lowers_exprs h children)

theorem lowers_calls (h : Corresponds σ c c') : (xs : List Call) → Lowers σ c c' (Lower.calls sec xs)
    (Lower.calls sec (Typed.renameCalls σ xs))
  | [] => lowers_pure
  | x :: xs => by
    simp only [Typed.renameCalls, Lower.calls]
    exact (lowers_call h x).bind fun _ => lowers_calls h xs

theorem lowers_appends (h : Corresponds σ c c') : (xs : List Append) →
    Lowers σ c c' (Lower.appends sec xs) (Lower.appends sec (Typed.renameAppends σ xs))
  | [] => lowers_pure
  | .element line x :: rest => by
    simp only [Typed.renameAppends, Append.rename, Lower.appends]
    exact (lowers_expr h x).bind fun _ => lowers_put.bind fun _ => lowers_appends h rest
  | .entry line k v :: rest => by
    simp only [Typed.renameAppends, Append.rename, Lower.appends]
    refine (lowers_expr h k).bind fun _ => (lowers_expr h v).bind fun _ => ?_
    exact lowers_put.bind fun _ => lowers_appends h rest

theorem lowers_lambda (h : Corresponds σ c c') : (fn : Lambda) → Lowers σ c c' (Lower.lambda sec fn)
    (Lower.lambda sec (fn.rename σ))
  | ⟨line, _, upvals, ⟨slots, ps, bodyLine, body⟩⟩ => by
    have hlast := lastLine_rename σ ⟨slots, ps, bodyLine, body⟩
    simp only [Frame.rename] at hlast
    simp only [Lambda.rename, Frame.rename, Lower.lambda, firstDefault_rename, hlast]
    refine lowers_emit.bind fun head => lowers_put.bind fun _ => ?_
    refine (lowers_params h ps).bind fun _ => ?_
    refine (lowers_closed (lowers_stmts h body)).bind fun _ => ?_
    refine lowers_mark.bind fun stop => lowers_offset.bind fun _ => ?_
    exact lowers_forM upvals fun _ _ => lowers_put

theorem lowers_params (h : Corresponds σ c c') {first i : Nat} : (ps : List VarDecl) →
    Lowers σ c c' (Lower.params sec first i ps) (Lower.params sec first i (Typed.renameVars σ ps))
  | [] => lowers_pure
  | ⟨line, v, none⟩ :: rest => by
    simp only [Typed.renameVars, VarDecl.rename, Lower.params, LocalVar.rename]
    exact (lowers_params h rest).bind fun _ => lowers_put
  | ⟨line, v, some x⟩ :: rest => by
    simp only [Typed.renameVars, VarDecl.rename, Lower.params, LocalVar.rename]
    refine (lowers_params h rest).bind fun _ => lowers_emit.bind fun d => ?_
    refine (lowers_expr h x).bind fun _ => lowers_mark.bind fun stop => ?_
    exact lowers_offset.bind fun _ => lowers_put

theorem lowers_stmt (h : Corresponds σ c c') {under : Bool} : (x : Stmt) →
    Lowers σ c c' (Lower.stmt sec under x) (Lower.stmt sec under (x.rename σ))
  | .expr x => by
    simp only [Stmt.rename, Lower.stmt]
    exact lowers_expr h x
  | .discard line n x => by
    simp only [Stmt.rename, Lower.stmt]
    exact (lowers_expr h x).bind fun _ => lowers_forM _ fun _ _ => lowers_put
  | .var ⟨line, v, none⟩ => by
    simp only [Stmt.rename, VarDecl.rename, Lower.stmt, LocalVar.rename]
    exact (lowers_typeConstant h v.type).bind fun _ => lowers_put
  | .var ⟨line, v, some x⟩ => by
    simp only [Stmt.rename, VarDecl.rename, Lower.stmt, LocalVar.rename]
    exact (lowers_expr h x).bind fun _ => lowers_put
  | .ret line n values => by
    simp only [Stmt.rename, Lower.stmt]
    exact (lowers_exprs h values).bind fun _ => lowers_ite lowers_put lowers_put
  | .brk line => by
    simp only [Stmt.rename, Lower.stmt]
    exact lowers_waitLoop.bind fun _ => lowers_emit.bind fun _ => lowers_waitLoop
  | .cont line => by
    simp only [Stmt.rename, Lower.stmt]
    exact lowers_waitLoop.bind fun _ => lowers_emit.bind fun _ => lowers_waitLoop
  | .yield line => by
    simp only [Stmt.rename, Lower.stmt]
    exact lowers_put
  | .block b => by
    simp only [Stmt.rename, Lower.stmt]
    exact lowers_block h b

theorem lowers_stmts (h : Corresponds σ c c') {under : Bool} : (xs : List Stmt) →
    Lowers σ c c' (Lower.stmts sec under xs) (Lower.stmts sec under (Typed.renameStmts σ xs))
  | [] => lowers_pure
  | x :: xs => by
    simp only [Typed.renameStmts, Lower.stmts]
    exact (lowers_stmt h x).bind fun _ => lowers_stmts h xs

theorem lowers_branches (h : Corresponds σ c c') : (xs : List Stmt) →
    Lowers σ c c' (Lower.branches sec xs) (Lower.branches sec (Typed.renameStmts σ xs))
  | [] => lowers_pure
  | x :: xs => by
    simp only [Typed.renameStmts, Lower.branches, isSeqOrDefer_rename, Stmt.line_rename]
    refine lowers_ite ((lowers_stmt h x).bind fun _ => lowers_branches h xs) ?_
    refine lowers_emit.bind fun head => (lowers_stmt h x).bind fun _ => ?_
    exact lowers_mark.bind fun stop => lowers_offset.bind fun _ => lowers_branches h xs

theorem lowers_block (h : Corresponds σ c c') {under : Bool} : (b : Block) →
    Lowers σ c c' (Lower.block sec under b) (Lower.block sec under (b.rename σ))
  | .group line kind ss => by
    have hend : ∀ head : Nat, Lowers σ c c'
        (do
          let stop ← Lower.mark sec line
          if kind ≠ .seq || under || someParallel ss || ss.any isDefer then Lower.offset sec head stop 1
          else Lower.assemble (Assemble.replace head .mark []))
        (do
          let stop ← Lower.mark sec line
          if kind ≠ .seq || under || someParallel ss || ss.any isDefer then Lower.offset sec head stop 1
          else Lower.assemble (Assemble.replace head .mark [])) :=
      fun head => lowers_mark.bind fun stop => lowers_ite lowers_offset lowers_assemble
    simp only [Block.rename, Lower.block, someParallel_rename, any_isDefer_rename]
    refine lowers_emit.bind fun head => ?_
    refine lowers_ite ?_ ?_
    · exact (lowers_branches h ss).bind fun _ => hend head
    · exact (lowers_stmts h ss).bind fun _ => hend head
  | .cond line as none => by
    simp only [Block.rename, Lower.block]
    refine (lowers_arms h as).bind fun exits => lowers_mark.bind fun stop => ?_
    exact lowers_forM exits fun _ _ => lowers_offset
  | .cond line as (some b) => by
    simp only [Block.rename, Lower.block]
    refine (lowers_arms h as).bind fun exits => (lowers_block h b).bind fun _ => lowers_mark.bind fun stop => ?_
    exact lowers_forM exits fun _ _ => lowers_offset
  | .whileLoop line test body none => by
    simp only [Block.rename, Lower.block]
    refine lowers_mark.bind fun top => (lowers_expr h test).bind fun _ => lowers_emit.bind fun jz => ?_
    exact (lowers_inLoop (lowers_block h body)).bind fun _ => lowers_mark.bind fun next => lowers_loopEnd
  | .whileLoop line test body (some post) => by
    simp only [Block.rename, Lower.block]
    refine lowers_mark.bind fun top => (lowers_expr h test).bind fun _ => lowers_emit.bind fun jz => ?_
    refine (lowers_inLoop (lowers_block h body)).bind fun _ => lowers_mark.bind fun next => ?_
    exact (lowers_block h post).bind fun _ => lowers_loopEnd
  | .doLoop line body test => by
    simp only [Block.rename, Lower.block]
    refine lowers_mark.bind fun top => (lowers_inLoop (lowers_block h body)).bind fun _ => ?_
    refine lowers_mark.bind fun next => (lowers_expr h test).bind fun _ => ?_
    exact lowers_emit.bind fun jz => lowers_loopEnd

theorem lowers_arms (h : Corresponds σ c c') {under more : Bool} {line : Nat} : (as : List Arm) →
    Lowers σ c c' (Lower.arms sec under line more as) (Lower.arms sec under line more (Typed.renameArms σ as))
  | [] => lowers_pure
  | ⟨test, body⟩ :: rest => by
    simp only [Typed.renameArms, Lower.arms, Expr.line_rename, Block.line_rename, isEmpty_renameArms]
    refine (lowers_expr h test).bind fun _ => lowers_emit.bind fun jz => (lowers_block h body).bind fun _ => ?_
    have hrest : ∀ exits : List Nat, Lowers σ c c'
        (do
          Lower.offset sec jz (← Lower.mark sec line) 0
          return exits ++ (← Lower.arms sec under line more rest))
        (do
          Lower.offset sec jz (← Lower.mark sec line) 0
          return exits ++ (← Lower.arms sec under line more (Typed.renameArms σ rest))) := by
      intro exits
      refine lowers_mark.bind fun stop => lowers_offset.bind fun _ => ?_
      exact (lowers_arms h rest).bind fun _ => lowers_pure
    split
    · exact lowers_emit.bind fun j => lowers_pure.bind hrest
    · exact lowers_pure.bind hrest

end

end Trees

/-! ## Programs -/

section Programs

variable {σ : Renaming} {c c' : Store × Module}

theorem lowers_func (h : Corresponds σ c c') (d : Typed.FuncDecl) :
    Lowers σ c c' (Lower.func d) (Lower.func (d.rename σ)) := by
  obtain ⟨line, symbol, frame⟩ := d
  unfold Lower.func
  refine lowers_store_bind ?_
  simp only [Typed.FuncDecl.rename, h.places.func_fullName, h.places.func_owner, Option.isSome_map]
  cases frame with
  | none => exact lowers_throw
  | some fr =>
    have hlast := lastLine_rename σ fr
    obtain ⟨slots, ps, bodyLine, body⟩ := fr
    simp only [Frame.rename] at hlast
    simp only [Option.map_some, Frame.rename, firstDefault_rename, hlast]
    refine lowers_emit.bind fun entry => ?_
    refine (lowers_modify fun l => ?_).bind fun _ => ?_
    · simp [Lowering.rename]
    refine (lowers_params h ps).bind fun _ => ?_
    have hbody : Lowers σ c c' (Lower.closed .code (Lower.lastLine ⟨slots, ps, bodyLine, body⟩) (Lower.stmts .code false body))
        (Lower.closed .code (Lower.lastLine ⟨slots, ps, bodyLine, body⟩)
          (Lower.stmts .code false (Typed.renameStmts σ body))) := lowers_closed (lowers_stmts h body)
    exact lowers_ite (lowers_put.bind fun _ => hbody) hbody

theorem lowers_decl (h : Corresponds σ c c') (d : Typed.Decl) :
    Lowers σ c c' (Lower.decl d) (Lower.decl (d.rename σ)) := by
  cases d with
  | importing line name => exact lowers_constant.bind fun _ => lowers_put
  | func d => exact lowers_func h d
  | cls line k methods =>
    simp only [Typed.Decl.rename, Lower.decl]
    rw [List.forM_eq_forM, List.forM_map]
    exact lowers_forM methods fun d _ => lowers_func h d
  | global line g init =>
    cases init with
    | none => exact lowers_pure
    | some x =>
      simp only [Typed.Decl.rename, Option.map_some, Lower.decl]
      refine (lowers_expr h x).bind fun _ => lowers_store_bind ?_
      rw [h.places.global]
      exact lowers_put

theorem lowers_program (h : Corresponds σ c c') (p : Typed.Program) :
    Lowers σ c c' (Lower.program p) (Lower.program (p.rename σ)) := by
  have hlast : (p.rename σ).decls.getLast?.map Typed.Decl.line = p.decls.getLast?.map Typed.Decl.line := by
    simp only [Typed.Program.rename, List.getLast?_map, Option.map_map]
    cases p.decls.getLast? <;> simp
  unfold Lower.program
  rw [hlast]
  refine Lowers.bind ?_ fun _ => lowers_put
  simp only [Typed.Program.rename]
  rw [List.forM_eq_forM, List.forM_map]
  exact lowers_forM p.decls fun d _ => lowers_decl h d

/-! ## Finishing -/

theorem lookup_entries_rename (es : List (FuncId × Nat)) (f : FuncId) :
    (es.map fun e => (σ.func e.1, e.2)).lookup (σ.func f) = es.lookup f := by
  induction es with
  | nil => rfl
  | cons e es ih =>
    have hsame : (σ.func f == σ.func e.1) = (f == e.1) := by
      rw [Bool.eq_iff_iff, beq_iff_eq, beq_iff_eq, σ.func.injective.eq_iff]
    rw [List.map_cons, List.lookup_cons, List.lookup_cons, ih, hsame]

theorem lowers_makeDirect (d : DirectCall) :
    Lowers σ c c' (Lower.makeDirect d) (Lower.makeDirect { d with func := σ.func d.func }) := by
  unfold Lower.makeDirect
  refine lowers_get_bind fun l => ?_
  have hentries : (l.rename σ).startOf? (σ.func d.func) = l.startOf? d.func := by
    have hmap : (l.rename σ).entries.reverse = l.entries.reverse.map fun e => (σ.func e.1, e.2) := List.map_reverse.symm
    rw [Lowering.startOf?, hmap, lookup_entries_rename]
    rfl
  rw [hentries]
  cases l.startOf? d.func with
  | none => exact lowers_pure
  | some entry =>
    refine lowers_assemble.bind fun bits => lowers_assemble.bind fun _ => lowers_get_bind fun l => ?_
    have hpool : (l.rename σ).pool = l.pool := rfl
    rw [hpool]
    cases l.pool.release d.constant with
    | error e => exact lowers_throw
    | ok pool =>
      refine lowers_pure.bind fun _ => ?_
      refine Lowers.bind (lowers_modify ?_) fun _ => ?_
      · exact fun _ => rfl
      exact lowers_assemble.bind fun _ => lowers_assemble

theorem lowers_remap {positions : Array (Option Nat)} {n : Nat} :
    Lowers σ c c' (Lower.remap positions n) (Lower.remap positions n) := by
  unfold Lower.remap
  refine lowers_get_bind fun l => ?_
  have hasm : (l.rename σ).asm = l.asm := rfl
  rw [hasm]
  generalize l.asm.instr n = i
  simp only []
  split
  · exact lowers_pure
  · split
    · exact lowers_throw
    · exact lowers_assemble

theorem lowers_remapAll {positions : Array (Option Nat)} {ns : Array Nat} :
    Lowers σ c c' (ns.forM (Lower.remap positions)) (ns.forM (Lower.remap positions)) := by
  rw [Bytecode.forM_toList]
  exact lowers_forM _ fun _ _ => lowers_remap

theorem lowers_finish (h : Corresponds σ c c') (hfile : c'.2.file = c.2.file) (himports : c'.2.imports = c.2.imports)
    (hrecord : c'.1.exportModule c'.2 = c.1.exportModule c.2) : Lowers σ c c' Lower.finish Lower.finish := by
  have hasm : ∀ l : Lowering, (l.rename σ).asm = l.asm := fun _ => rfl
  have hpool : ∀ l : Lowering, (l.rename σ).pool = l.pool := fun _ => rfl
  unfold Lower.finish
  refine lowers_get_bind fun l => ?_
  refine Lowers.bind ?_ fun _ => lowers_get_bind fun l => ?_
  · simp only [Lowering.rename]
    rw [List.forM_eq_forM, List.forM_map]
    exact lowers_forM l.direct fun d _ => lowers_makeDirect d
  rw [hpool]
  generalize l.pool.compact = r
  obtain ⟨positions, pool⟩ := r
  simp only [List.forIn_cons, List.forIn_nil, bind_assoc, pure_bind]
  refine Lowers.bind (lowers_modify ?_) fun _ => ?_
  · exact fun _ => rfl
  refine lowers_get_bind fun l => ?_
  rw [hasm]
  refine lowers_remapAll.bind fun _ => lowers_get_bind fun l => ?_
  rw [hasm]
  refine lowers_remapAll.bind fun _ => ?_
  refine lowers_assemble.bind fun _ => lowers_assemble.bind fun _ => ?_
  -- what is left reads the module, the symbols and the positions of the functions
  have hread : ∀ {α : Type} {k k' : Store × Module → Lower α}, Lowers σ c c' (k c) (k' c') →
      Lowers σ c c' (read >>= k) (read >>= k') := fun hk => hk
  refine hread (lowers_get_bind fun l => ?_)
  refine lowers_assemble.bind fun init => lowers_assemble.bind fun code => ?_
  refine lowers_assemble.bind fun initLines => lowers_assemble.bind fun lines => ?_
  have hfuncs : (l.rename σ).entries.map (fun e => (⟨(c'.1.func e.1).fullName, ((l.rename σ).asm.instr e.2).pos⟩ : FuncPos)) =
      l.entries.map fun e => ⟨(c.1.func e.1).fullName, (l.asm.instr e.2).pos⟩ := by
    simp [Lowering.rename, h.places.func_fullName]
  rw [h.name, hfile, himports, hrecord, hfuncs]
  exact lowers_pure

theorem compile_rename {s s' : Store} {m m' : Module} (h : Corresponds σ (s, m) (s', m')) (hfile : m'.file = m.file)
    (himports : m'.imports = m.imports) (hrecord : s'.exportModule m' = s.exportModule m) (p : Typed.Program) :
    compile s' m' (p.rename σ) = compile s m p := by
  have hrun := (lowers_program h p).bind fun _ => lowers_finish h hfile himports hrecord
  exact hrun.result { asm := .empty, pool := .empty, loops := [], entries := [], direct := [] }

end Programs

end Bytecode

end Weft
