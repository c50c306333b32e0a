import Mathlib.Logic.Relation
import ShaderModule.Program.Promotion
import ShaderModule.Proofs.Program.Along
import ShaderModule.Proofs.Program.TypeGraph
import ShaderModule.Proofs.Record.Growth

/-!
# Steps of a program

Whatever is done to a program is a chain of few kinds of steps: contents are entered, a function is
declared or erased, an instruction is placed or erased, an attachment is changed, or one value is
replaced by another. What all these steps preserve holds of every program.
-/

namespace ShaderModule

namespace Program

variable {p q r : Program}

/-- Nothing changes in functions and instructions, and contents are only entered, none of them again. -/
structure Quiet (p q : Program) : Prop extends Extends p q where
  functions : q.functions = p.functions
  insts     : q.insts = p.insts
  uniqued   : p.Uniqued → q.Uniqued

theorem Quiet.refl (p : Program) : p.Quiet p := ⟨.refl p, rfl, rfl, id⟩

theorem Quiet.function? (h : p.Quiet q) (g : Handle .function) : q.function? g = p.function? g := by
  rw [Program.function?, h.functions, Program.function?]

theorem Quiet.inst? (h : p.Quiet q) (x : Handle .inst) : q.inst? x = p.inst? x := by
  rw [Program.inst?, h.insts, Program.inst?]

theorem Quiet.body (h : p.Quiet q) (g : Handle .function) : q.body g = p.body g := by
  rw [Program.body, h.function?, Program.body]

theorem Quiet.instKind? (h : p.Quiet q) (x : Handle .inst) : q.instKind? x = p.instKind? x := by
  rw [Program.instKind?, h.inst?, Program.instKind?]

theorem Quiet.hasInst (h : p.Quiet q) (x : Handle .inst) : q.hasInst x = p.hasInst x := by
  rw [Program.hasInst, h.inst?, Program.hasInst]

theorem Grows.quiet (h : p.Grows q) : p.Quiet q := by
  refine ⟨h.toExtends, h.functions, ?_, h.uniqued⟩
  rw [h.rest]

end Program

/-- The type of an instruction is that of its result, as far as replacing operands cannot change it. -/
def Inst.Typed (p : Program) (i : Inst) : Prop :=
  match i.kind with
  | .alloca allocated => p.type? i.type = some (.pointer allocated .default)
  | .store _ _ | .ret _ => p.type? i.type = some .void
  | .call callee args =>
    callee < p.functions.next ∧ ∀ g, p.function? callee = some g →
      ∃ params, (p.type? g.type).bind Ty.signature? = some (i.type, params) ∧ params.length = args.length
  | .load _ | .binary _ _ _ => True

namespace Program

/-- One step of what can be done to a program. -/
inductive Step : Program → Program → Prop where
  | quiet {p q : Program} (h : p.Quiet q) : Step p q
  | declare {p : Program} {name : String} {type : Handle .type}
      (htype : ((p.type? type).bind Ty.signature?).isSome) (hname : p.functionNamed? name = none) :
      Step p { p with functions := p.functions.push ⟨name, type, [], .empty⟩ }
  | eraseFunction {p : Program} {h : Handle .function} {f : Function} (hf : p.function? h = some f) :
      Step p { p with functions := p.functions.erase h, insts := f.body.foldl Slots.erase p.insts }
  | attachFunction {p : Program} (h : Handle .function) (attach : Attachments → Attachments) :
      Step p { p with
        functions := p.functions.modify h fun f => { f with metadata := attach f.metadata } }
  | place {p : Program} (pos : Nat) {i : Inst} (hparent : p.hasFunction i.parent) (htyped : i.Typed p) :
      Step p (placeInst pos i p).2
  | eraseInst {p : Program} {h : Handle .inst} {i : Inst} (hi : p.inst? h = some i) :
      Step p { p with
        insts := p.insts.erase h
        functions := p.functions.modify i.parent fun f => { f with body := f.body.filter (· ≠ h) } }
  | attachInst {p : Program} (h : Handle .inst) (attach : Attachments → Attachments) :
      Step p { p with insts := p.insts.modify h fun i => { i with metadata := attach i.metadata } }
  | replace {p : Program} (old new : Value) : Step p (p.replaceUses old new)

variable {p q : Program}

/-- Any number of steps. -/
abbrev Steps : Program → Program → Prop := Relation.ReflTransGen Step

theorem Quiet.steps (h : p.Quiet q) : p.Steps q := .single (.quiet h)

/-- A step changes contents by entering them at most. -/
theorem Step.toExtends (h : p.Step q) : p.Extends q := by
  cases h with
  | quiet h => exact h.toExtends
  | declare | eraseFunction | attachFunction | place | eraseInst | attachInst | replace =>
    exact ⟨List.prefix_refl _, List.prefix_refl _, List.prefix_refl _⟩

theorem Steps.toExtends (h : p.Steps q) : p.Extends q := by
  induction h with
  | refl => exact .refl p
  | tail _ hstep ih => exact ih.trans hstep.toExtends

/-- No step enters a content again. -/
theorem Step.uniqued (h : p.Step q) (hp : p.Uniqued) : q.Uniqued := by
  cases h with
  | quiet h => exact h.uniqued hp
  | declare | eraseFunction | attachFunction | place | eraseInst | attachInst | replace =>
    exact ⟨hp.types, hp.constants, hp.nodes⟩

theorem Steps.uniqued (h : p.Steps q) (hp : p.Uniqued) : q.Uniqued := by
  induction h with
  | refl => exact hp
  | tail _ hstep ih => exact hstep.uniqued ih

/-! ### Edits -/

/-- `q` comes from `p` by steps, which erase no function that is to be `kept`. Besides contents, functions and
instructions nothing changes. -/
structure Edits (kept : Handle .function → Prop) (p q : Program) : Prop where
  steps     : p.Steps q
  functions : ∀ f, kept f → p.hasFunction f → q.hasFunction f
  rest      : q = { p with
    types := q.types, constants := q.constants, nodes := q.nodes, functions := q.functions, insts := q.insts }

section

variable {r : Program} {kept : Handle .function → Prop}

theorem Edits.refl (p : Program) : p.Edits kept p := ⟨.refl, fun _ _ => id, rfl⟩

theorem Edits.trans (h : p.Edits kept q) (k : q.Edits kept r) : p.Edits kept r := by
  refine ⟨h.steps.trans k.steps, fun f hf => k.functions f hf ∘ h.functions f hf, ?_⟩
  have hk := k.rest
  rw [h.rest] at hk
  exact hk

instance : Std.Refl (Edits kept) := ⟨Edits.refl⟩

instance : IsTrans Program (Edits kept) := ⟨fun _ _ _ => Edits.trans⟩

theorem Edits.globals (h : p.Edits kept q) : q.globals = p.globals := by
  rw [h.rest]

theorem Edits.named (h : p.Edits kept q) : q.named = p.named := by
  rw [h.rest]

theorem Grows.edits (h : p.Grows q) : p.Edits kept q := by
  refine ⟨h.quiet.steps, fun f _ => ?_, ?_⟩
  · rw [hasFunction, hasFunction, function?, function?, h.functions]
    exact id
  · have hrest := h.rest
    rw [hrest]

/-- A step that changes no more than functions and instructions, and leaves the functions there. -/
theorem Step.edits (h : p.Step q) (hlive : ∀ f, q.hasFunction f = p.hasFunction f)
    (hrest : q = { p with functions := q.functions, insts := q.insts }) : p.Edits kept q := by
  refine ⟨.single h, fun f _ hf => (hlive f).trans hf, ?_⟩
  rw [hrest]

end

theorem isSome_get?_modify {kind : Kind} {α : Type} (s : Slots kind α) (g h : Handle kind) (f : α → α) :
    ((s.modify g f).get? h).isSome = (s.get? h).isSome := by
  rw [Slots.get?_modify]
  split <;> simp

end Program

/-- The type that a constant carries; bytes carry none. -/
def Constant.type? : Constant → Option (Handle .type)
  | .int t _ | .float t _ | .undef t | .zero t => some t
  | .bytes _ => none

namespace Program

variable {p q r : Program}

/-! ## Types of values -/

/-- The type of a value, and the program that has it. -/
inductive Typing (p : Program) : Value → Handle .type → Program → Prop where
  | inst {h : Handle .inst} {i : Inst} (hi : p.inst? h = some i) : Typing p (.inst h) i.type p
  | global {h : Handle .global} {g : Global} (hg : p.global? h = some g) :
      Typing p (.global h) (Build.type (.pointer g.type g.space) p).1 (Build.type (.pointer g.type g.space) p).2
  | function {h : Handle .function} {f : Function} (hf : p.function? h = some f) : Typing p (.function h) f.type p
  | argument {h : Handle .function} {f : Function} {index : UInt32} {result t : Handle .type}
      {params : List (Handle .type)} (hf : p.function? h = some f)
      (hsig : (p.type? f.type).bind Ty.signature? = some (result, params)) (ht : params[index.toNat]? = some t) :
      Typing p (.argument h index) t p
  | constant {h : Handle .constant} {c : Constant} {t : Handle .type} (hc : p.constant? h = some c)
      (ht : c.type? = some t) : Typing p (.constant h) t p
  | bytes {h : Handle .constant} {data : List UInt8} (hc : p.constant? h = some (.bytes data)) :
      Typing p (.constant h) (Build.bytesType data.length p).1 (Build.bytesType data.length p).2

theorem Typing.of_valueType {v : Value} {t : Handle .type} (h : valueType v p = .ok t q) : p.Typing v t q := by
  cases v with
  | inst o =>
    simp only [valueType] at h
    split at h
    · next hi =>
      cases h
      exact .inst hi
    · cases h
  | global g =>
    simp only [valueType] at h
    split at h
    · next hg =>
      cases h
      exact .global hg
    · cases h
  | function f =>
    simp only [valueType] at h
    split at h
    · next hf =>
      cases h
      exact .function hf
    · cases h
  | argument f index =>
    simp only [valueType] at h
    split at h
    · cases h
    · next hf =>
      split at h
      · cases h
      · next hsig =>
        split at h
        · next ht =>
          cases h
          exact .argument hf hsig ht
        · cases h
  | constant c =>
    simp only [valueType] at h
    split at h
    -- Of the five sorts of constants only bytes do not carry their type.
    iterate 4
      · next hc =>
        cases h
        exact .constant hc rfl
    · next hc =>
      cases h
      exact .bytes hc
    · cases h

theorem Typing.valueType_eq {v : Value} {t : Handle .type} (h : p.Typing v t q) : valueType v p = .ok t q := by
  cases h with
  | inst hi => simp [valueType, hi]
  | global hg =>
    simp only [valueType, hg]
    rfl
  | function hf => simp [valueType, hf]
  | argument hf hsig ht => simp [valueType, hf, hsig, ht]
  | @constant h c t hc ht =>
    cases c with
    | bytes => cases ht
    | int | float | undef | zero =>
      cases ht
      simp [valueType, hc]
  | bytes hc =>
    simp only [valueType, hc]
    rfl

/-- The ways in which the type of a value is found. -/
theorem valueType_eq_ok_iff {v : Value} {t : Handle .type} : valueType v p = .ok t q ↔ p.Typing v t q :=
  ⟨.of_valueType, Typing.valueType_eq⟩

/-! ## Results of instructions -/

section Results

variable {ε : Type}

instance : Std.Refl Grows := ⟨Grows.refl⟩

instance : IsTrans Program Grows := ⟨fun _ _ _ => Grows.trans⟩

theorem grows_edit {α : Type} {b : Build α} (hb : b.Growing) : Along Grows (Build.edit (ε := ε) b) := hb

/-- Each component of a type has been issued, or a global is of that type. -/
def Supplies (p : Program) (t : Ty) : Prop :=
  ∀ c ∈ t.components, p.types.Issued c ∨ ∃ g x, p.global? g = some x ∧ x.type = c

theorem supplies_of_components {t : Ty} (ht : t.components = []) (p : Program) : p.Supplies t := by
  intro c hc
  simp [ht] at hc

section

variable {R : Program → Program → Prop} [IsTrans Program R] (htype : ∀ t p, p.Supplies t → R p (Build.type t p).2)

include htype

/-- The type of bytes takes two types, that of one byte and that of the array. -/
theorem along_bytesType (length : Nat) (p : Program) : R p (Build.bytesType length p).2 := by
  have harray : (Build.type (.int 8) p).2.Supplies (.array (Build.type (.int 8) p).1 (UInt64.ofNat length)) := by
    intro c hc
    rw [List.mem_singleton.1 hc]
    exact .inl (p.types.issued_intern (.int 8))
  exact trans_of R (htype _ p (supplies_of_components rfl p)) (htype _ _ harray)

variable [Std.Refl R]

/-- Working out a type goes along whatever entering types of issued types and of types of globals goes along. -/
theorem along_valueType (v : Value) : Along R (valueType v) := by
  intro p
  cases v with
  | inst h =>
    simp only [valueType]
    split <;> exact refl_of R p
  | global h =>
    simp only [valueType]
    split
    · next g hg =>
      refine htype _ p fun c hc => .inr ⟨h, g, hg, ?_⟩
      exact (List.mem_singleton.1 hc).symm
    · exact refl_of R p
  | function h =>
    simp only [valueType]
    split <;> exact refl_of R p
  | argument h index =>
    simp only [valueType]
    split
    · exact refl_of R p
    · split
      · exact refl_of R p
      · split <;> exact refl_of R p
  | constant h =>
    simp only [valueType]
    split
    iterate 4 exact refl_of R p
    · exact along_bytesType htype _ p
    · exact refl_of R p

theorem along_pointeeOf (ptr : Value) : Along R (pointeeOf ptr) := by
  unfold pointeeOf
  refine .bind (along_valueType htype ptr) fun type => .bind .get fun p => ?_
  split
  · exact .pure _
  · exact .throw _

/-- A stack slot brings in the type of what it holds from outside. -/
theorem along_resultType (kind : InstKind)
    (halloca : ∀ allocated, kind = .alloca allocated → ∀ p, R p (Build.type (.pointer allocated .default) p).2) :
    Along R (resultType kind) := by
  have hvoid : Along R (Build.edit (ε := ProgramError) (Build.type .void)) := fun p =>
    htype _ p (supplies_of_components rfl p)
  cases kind with
  | alloca allocated => exact halloca allocated rfl
  | load ptr => exact along_pointeeOf htype ptr
  | store ptr value => exact .bind (along_pointeeOf htype ptr) fun _ => hvoid
  | binary op lhs rhs => exact along_valueType htype lhs
  | call callee args =>
    refine .bind .get fun p => ?_
    split
    · split
      · split
        · exact .pure _
        · exact .throw _
      · exact .throw _
    · exact .throw _
  | ret value => exact hvoid

end

/-- `q` is `p` with types entered at the end of its table. -/
structure EntersTypes (p q : Program) : Prop where
  rest  : q = { p with types := q.types }
  types : p.types.entries <+: q.types.entries

theorem EntersTypes.refl (p : Program) : p.EntersTypes p := ⟨rfl, List.prefix_refl _⟩

theorem EntersTypes.trans (h : p.EntersTypes q) (k : q.EntersTypes r) : p.EntersTypes r := by
  refine ⟨?_, h.types.trans k.types⟩
  have hk := k.rest
  rw [h.rest] at hk
  exact hk

instance : Std.Refl EntersTypes := ⟨EntersTypes.refl⟩

instance : IsTrans Program EntersTypes := ⟨fun _ _ _ => EntersTypes.trans⟩

theorem entersTypes_type (t : Ty) (p : Program) : p.EntersTypes (Build.type t p).2 :=
  ⟨rfl, (Build.growing_type t p).types⟩

theorem grows_valueType (v : Value) : Along Grows (valueType v) :=
  along_valueType (fun t p _ => Build.growing_type t p) v

theorem grows_of_valueType {v : Value} {t : Handle .type} (h : valueType v p = .ok t q) :
    p.Grows q := by
  have hgrows := grows_valueType v p
  rwa [h] at hgrows

theorem grows_resultType (kind : InstKind) : Along Grows (resultType kind) :=
  along_resultType (fun t p _ => Build.growing_type t p) kind fun _ _ => Build.growing_type _

/-- The type that is worked out for an instruction is the one it should have. -/
theorem typed_of_resultType {kind : InstKind} {type : Handle .type}
    (h : resultType kind p = .ok type q) (function : Handle .function) (metadata : Attachments) :
    Inst.Typed q ⟨function, kind, type, metadata⟩ := by
  cases kind with
  | alloca allocated =>
    cases h
    exact Build.type?_type _ p
  | load ptr => trivial
  | store ptr value =>
    obtain ⟨t, r, -, h⟩ := action_bind_eq_ok.1 h
    cases h
    exact Build.type?_type _ r
  | binary op lhs rhs => trivial
  | call callee args =>
    obtain ⟨p', r, hp, h⟩ := action_bind_eq_ok.1 h
    cases hp
    cases hf : p.function? callee with
    | none =>
      simp only [hf] at h
      cases h
    | some f =>
      cases hsig : (p.type? f.type).bind Ty.signature? with
      | none =>
        simp only [hf, hsig] at h
        cases h
      | some sig =>
        simp only [hf, hsig] at h
        split at h
        · next hlen =>
          cases h
          refine ⟨Slots.lt_next_of_mem_live (Slots.mem_live.2 (Option.isSome_of_eq_some hf)), ?_⟩
          intro g hg
          cases hf.symm.trans hg
          exact ⟨sig.2, hsig, hlen⟩
        · cases h
  | ret value =>
    cases h
    exact Build.type?_type _ p

end Results

/-! ## Edits are chains of steps -/

section Edits

variable {ε α : Type} {function : Handle .function} {pos : Nat} {kind : InstKind}
  {kept : Handle .function → Prop}

theorem edits_of_grows {e : Edit ε α} (he : Along Grows e) : Along (Edits kept) e := fun p => (he p).edits

theorem edits_build {b : Build α} (hb : b.Growing) : Along (Edits kept) (Build.edit (ε := ε) b) :=
  edits_of_grows (grows_edit hb)

theorem edits_replaceUses (old new : Value) (p : Program) : p.Edits kept (p.replaceUses old new) :=
  Step.edits (.replace old new) (fun _ => rfl) rfl

theorem insertAt_eq (hf : p.hasFunction function) :
    insertAt function pos kind p =
      match resultType kind p with
      | .ok type q => .ok q.insts.next (placeInst pos ⟨function, kind, type, .empty⟩ q).2
      | .error e q => .error e q := by
  simp only [insertAt, get_bind_eq, hf, if_true]
  simp only [bind, EStateM.bind]
  cases resultType kind p <;> rfl

theorem insertAt_of_not (hf : p.hasFunction function = false) :
    insertAt function pos kind p = .error (.unknownFunction function) p := by
  simp only [insertAt, get_bind_eq, hf]
  rfl

theorem insertAfter_eq (anchor : Handle .inst) :
    insertAfter anchor kind p =
      match p.position? anchor with
      | some (function, pos) => insertAt function (pos + 1) kind p
      | none => .error (.unknownInst anchor) p := by
  simp only [insertAfter, get_bind_eq]
  cases p.position? anchor <;> rfl

theorem insertBefore_eq (anchor : Handle .inst) :
    insertBefore anchor kind p =
      match p.position? anchor with
      | some (function, pos) => insertAt function pos kind p
      | none => .error (.unknownInst anchor) p := by
  simp only [insertBefore, get_bind_eq]
  cases p.position? anchor <;> rfl

theorem edits_insertAt (function : Handle .function) (pos : Nat) (kind : InstKind) :
    Along (Edits kept) (insertAt function pos kind) := by
  intro p
  cases hf : p.hasFunction function with
  | false =>
    rw [insertAt_of_not hf]
    exact .refl p
  | true =>
    have hgrows := grows_resultType kind p
    rw [insertAt_eq hf]
    cases hr : resultType kind p with
    | error e q =>
      rw [hr] at hgrows
      exact hgrows.edits
    | ok type q =>
      rw [hr] at hgrows
      change p.Grows q at hgrows
      have hq : q.hasFunction function := by
        rwa [hasFunction, function?, hgrows.functions]
      have hplace := Step.place pos hq (typed_of_resultType hr function .empty)
      exact hgrows.edits.trans (hplace.edits (fun f => isSome_get?_modify _ _ _ _) rfl)

section

variable {R : Program → Program → Prop} [Std.Refl R] [IsTrans Program R]
  (hat : ∀ function pos, Along R (insertAt function pos kind))

include hat

theorem along_append (function : Handle .function) : Along R (append function kind) := by
  refine .bind .get fun p => ?_
  split
  · exact hat _ _
  · exact .throw _

theorem along_insertAfter (anchor : Handle .inst) : Along R (insertAfter anchor kind) := by
  refine .bind .get fun p => ?_
  split
  · exact hat _ _
  · exact .throw _

theorem along_insertBefore (anchor : Handle .inst) : Along R (insertBefore anchor kind) := by
  refine .bind .get fun p => ?_
  split
  · exact hat _ _
  · exact .throw _

end

theorem edits_append (function : Handle .function) (kind : InstKind) :
    Along (Edits kept) (append function kind) :=
  along_append (fun f pos => edits_insertAt f pos kind) function

theorem edits_insertAfter (anchor : Handle .inst) (kind : InstKind) :
    Along (Edits kept) (insertAfter anchor kind) :=
  along_insertAfter (fun f pos => edits_insertAt f pos kind) anchor

theorem edits_insertBefore (anchor : Handle .inst) (kind : InstKind) :
    Along (Edits kept) (insertBefore anchor kind) :=
  along_insertBefore (fun f pos => edits_insertAt f pos kind) anchor

theorem edits_eraseInst (h : Handle .inst) : Along (Edits kept) (eraseInst h) := by
  intro p
  unfold eraseInst
  cases hi : p.inst? h with
  | none => exact .refl p
  | some i => exact (Step.eraseInst hi).edits (fun f => isSome_get?_modify _ _ _ _) rfl

theorem edits_setInstMetadata (h : Handle .inst) (kind : String) (node : Option (Handle .node)) :
    Along (Edits kept) (setInstMetadata h kind node) := by
  intro p
  unfold setInstMetadata
  split
  · exact (Step.attachInst h fun a => a.set kind node).edits (fun _ => rfl) rfl
  · exact .refl p

theorem edits_addFunction (name : String) (type : Handle .type) :
    Along (Edits kept) (addFunction name type) := by
  intro p
  unfold addFunction
  split
  · exact .refl p
  · next htype =>
    split
    · exact .refl p
    · next hname =>
      refine ⟨.single (.declare ?_ ?_), fun f _ hf => ?_, rfl⟩
      · rw [Option.isSome_iff_ne_none]
        intro hnone
        exact htype (by simp [hnone])
      · simpa using hname
      · have hne : f ≠ p.functions.next := by
          rintro rfl
          exact Nat.lt_irrefl _ (Slots.lt_next_of_mem_live (Slots.mem_live.2 hf))
        simpa only [after, hasFunction, function?, Listed.toSlots_push, Slots.get?_push_of_ne hne] using hf

theorem edits_ensureFunction (name : String) (type : Handle .type) :
    Along (Edits kept) (ensureFunction name type) := by
  intro p
  unfold ensureFunction
  split
  · exact .refl p
  · exact edits_addFunction name type p

theorem edits_eraseFunction {h : Handle .function} (hh : ¬ kept h) : Along (Edits kept) (eraseFunction h) := by
  intro p
  unfold eraseFunction
  cases hf : p.function? h with
  | none => exact .refl p
  | some f =>
    refine ⟨.single (.eraseFunction hf), fun g hg hlive => ?_, rfl⟩
    have hne : g ≠ h := fun heq => hh (heq ▸ hg)
    simpa only [after, hasFunction, function?, Listed.toSlots_erase, Slots.get?_erase_of_ne hne] using hlive

theorem edits_setFunctionMetadata (h : Handle .function) (kind : String) (node : Option (Handle .node)) :
    Along (Edits kept) (setFunctionMetadata h kind node) := by
  intro p
  unfold setFunctionMetadata
  split
  · exact (Step.attachFunction h fun a => a.set kind node).edits (fun f => isSome_get?_modify _ _ _ _) rfl
  · exact .refl p

section

variable {R : Program → Program → Prop} [Std.Refl R] [IsTrans Program R]
  (hconstant : ∀ c p, R p (Build.constant c p).2)
  (hcall : ∀ anchor callee args, Along R (insertAfter anchor (.call callee args)))
  (hreplace : ∀ old new p, R p (p.replaceUses old new)) (herase : ∀ h, Along R (eraseInst h))

include hconstant hcall hreplace herase

/-- Promoting a slot enters a constant, calls annotators, replaces values and erases instructions. -/
theorem along_promoteSlot (function : Handle .function) (slot : Handle .inst) (type : Handle .type) :
    Along R (promoteSlot function slot type) := by
  have heraseInsts : ∀ hs, Along R (eraseInsts hs) := .forM fun h => .discard (herase h)
  refine .bind .get fun p => ?_
  split
  · refine .bind (hconstant _) fun undefined => ?_
    refine .bind .get fun p => .bind (.forM (fun x => .forM (fun y => ?_) _) _) fun _ => ?_
    · exact .discard (hcall _ _ _)
    refine .bind (.forM (fun x => ?_) _) fun _ => ?_
    · exact .bind (.modify (hreplace _ _)) fun _ => .discard (herase _)
    refine .bind (heraseInsts _) fun _ => .bind (heraseInsts _) fun _ => ?_
    exact .bind (heraseInsts _) fun _ => .pure _
  · exact .pure _

theorem along_promote (function : Handle .function) : Along R (promote function) := by
  refine .bind .get fun p => .bind (.mapM (fun x => ?_) _) fun _ => .pure _
  exact along_promoteSlot hconstant hcall hreplace herase _ _ _

end

theorem edits_promoteSlot (function : Handle .function) (slot : Handle .inst) (type : Handle .type) :
    Along (Edits kept) (promoteSlot function slot type) :=
  along_promoteSlot (fun c p => (Build.growing_constant c p).edits) (fun _ _ _ => edits_insertAfter _ _)
    edits_replaceUses edits_eraseInst function slot type

theorem edits_promote (function : Handle .function) : Along (Edits kept) (promote function) :=
  along_promote (fun c p => (Build.growing_constant c p).edits) (fun _ _ _ => edits_insertAfter _ _) edits_replaceUses
    edits_eraseInst function

end Edits

end Program

end ShaderModule
