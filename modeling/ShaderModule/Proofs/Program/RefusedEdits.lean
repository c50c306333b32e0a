import ShaderModule.Proofs.Program.WellFormed
import ShaderModule.Proofs.Shader.Steps

/-!
# Refused edits

A refused edit leaves the program as it was, but for types that stand at the end of their table now: they were entered
while the type of a value was worked out. Whether an insertion is refused can be told from the program before it.
-/

namespace ShaderModule

namespace Program

variable {p q : Program}

/-! ## Functions have function types -/

/-- The type of every function is a function type. -/
def Signed (p : Program) : Prop :=
  ∀ f x, p.function? f = some x → ((p.type? x.type).bind Ty.signature?).isSome

/-- Functions that had their types before have function types still. -/
theorem Signed.of_types (hp : p.Signed) (hext : p.Extends q)
    (h : ∀ f y, q.function? f = some y → ∃ x, p.function? f = some x ∧ x.type = y.type) : q.Signed := by
  intro f y hy
  obtain ⟨x, hx, htype⟩ := h f y hy
  obtain ⟨s, hs⟩ := Option.isSome_iff_exists.1 (hp f x hx)
  obtain ⟨t, ht, hs⟩ := Option.bind_eq_some_iff.1 hs
  exact Option.isSome_of_eq_some (Option.bind_eq_some_iff.2 ⟨t, htype ▸ hext.type? ht, hs⟩)

theorem Signed.modify (hp : p.Signed) {h : Handle .function} {change : Function → Function} (hext : p.Extends q)
    (hq : q.functions = p.functions.modify h change) (htype : ∀ f, (change f).type = f.type) : q.Signed := by
  refine hp.of_types hext fun f y hy => ?_
  rw [function?, hq] at hy
  rcases Slots.get?_modify_eq_some.1 hy with ⟨-, hy⟩ | ⟨-, x, hx, rfl⟩
  · exact ⟨y, hy, rfl⟩
  · exact ⟨x, hx, (htype x).symm⟩

theorem Signed.step (hp : p.Signed) (h : p.Step q) : q.Signed := by
  have hext := h.toExtends
  cases h with
  | quiet h => exact hp.of_types hext fun f y hy => ⟨y, (h.function? f).symm.trans hy, rfl⟩
  | declare htype hname =>
    intro f y hy
    rcases Slots.get?_push_eq_some.1 hy with ⟨-, rfl⟩ | hy
    · exact htype
    · exact hp f y hy
  | eraseFunction hf => exact hp.of_types hext fun f y hy => ⟨y, (Slots.get?_erase_eq_some.1 hy).2, rfl⟩
  | attachFunction h attach => exact hp.modify hext rfl fun _ => rfl
  | place pos => exact hp.modify hext rfl fun _ => rfl
  | eraseInst hi => exact hp.modify hext rfl fun _ => rfl
  | attachInst | replace => exact hp

theorem Signed.steps (hp : p.Signed) (h : p.Steps q) : q.Signed := by
  induction h with
  | refl => exact hp
  | tail _ hstep ih => exact ih.step hstep

theorem Reachable.signed (hp : p.Reachable) : p.Signed := by
  obtain ⟨name, hevolves⟩ := hp.evolves
  have hempty : (empty name).Signed := nofun
  exact hempty.steps hevolves.steps

/-! ## What has a result type -/

/-- The types of the parameters of a function. -/
def paramsOf (p : Program) (f : Handle .function) : List (Handle .type) :=
  (((p.function? f).bind fun x => (p.type? x.type).bind Ty.signature?).map Prod.snd).getD []

/-- The type of what a value is the address of. -/
def pointsTo? (p : Program) : Value → Option (Handle .type)
  | .inst h => (p.inst? h).bind fun i => p.pointee? i.type
  | .global h => (p.global? h).map Global.type
  | .function _ => none
  | .argument f index => ((p.paramsOf f)[index.toNat]?).bind p.pointee?
  | .constant h => ((p.constant? h).bind Constant.type?).bind p.pointee?

/-- The operands that decide about the result of an instruction are there and fit: memory is read and written at
addresses, and a function is called with as many arguments as it has parameters. -/
def Admits (p : Program) : InstKind → Prop
  | .alloca _ | .ret _ => True
  | .load ptr | .store ptr _ => p.isLive ptr ∧ (p.pointsTo? ptr).isSome
  | .binary _ lhs _ => p.isLive lhs
  | .call callee args => p.hasFunction callee ∧ (p.paramsOf callee).length = args.length

instance : DecidablePred p.Admits := fun kind => by
  cases kind <;> unfold Admits <;> infer_instance

theorem pointee?_type_pointer (t : Handle .type) (space : AddressSpace) (p : Program) :
    (Build.type (.pointer t space) p).2.pointee? (Build.type (.pointer t space) p).1 = some t := by
  simp [pointee?, Build.type?_type, Ty.pointee?]

theorem pointee?_bytesType (length : Nat) (p : Program) :
    (Build.bytesType length p).2.pointee? (Build.bytesType length p).1 = none := by
  have htype : (Build.bytesType length p).2.type? (Build.bytesType length p).1 =
      some (.array (Build.type (.int 8) p).1 (UInt64.ofNat length)) := Build.type?_type _ _
  simp [pointee?, htype, Ty.pointee?]

/-- A value is an address if and only if its type is that of a pointer. -/
theorem pointee?_of_valueType (hp : p.Signed) {v : Value} {t : Handle .type} (h : valueType v p = .ok t q) :
    q.pointee? t = p.pointsTo? v := by
  cases valueType_eq_ok_iff.1 h with
  | inst hi => simp [pointsTo?, hi]
  | @global _ g hg => exact (pointee?_type_pointer g.type g.space p).trans (by simp [pointsTo?, hg])
  | function hf =>
    obtain ⟨s, hs⟩ := Option.isSome_iff_exists.1 (hp _ _ hf)
    obtain ⟨ty, hty, hs⟩ := Option.bind_eq_some_iff.1 hs
    cases ty with
    | function result params => simp [pointsTo?, pointee?, hty, Ty.pointee?]
    | _ => cases hs
  | argument hf hsig ht => simp [pointsTo?, paramsOf, hf, hsig, ht]
  | constant hc ht => simp [pointsTo?, hc, ht]
  | @bytes _ data hc => exact (pointee?_bytesType data.length p).trans (by simp [pointsTo?, hc, Constant.type?])

theorem exists_pointeeOf_iff (hp : p.Signed) {ptr : Value} :
    (∃ t q, pointeeOf ptr p = .ok t q) ↔ p.isLive ptr ∧ (p.pointsTo? ptr).isSome := by
  constructor
  · rintro ⟨t, q, h⟩
    obtain ⟨type, u, htype, h⟩ := action_bind_eq_ok.1 h
    refine ⟨isLive_iff.2 ⟨type, u, htype⟩, ?_⟩
    rw [← pointee?_of_valueType hp htype]
    simp only [get_bind_eq] at h
    cases hpointee : u.pointee? type with
    | none =>
      rw [hpointee] at h
      cases h
    | some t => rfl
  · rintro ⟨hlive, hpoints⟩
    obtain ⟨type, u, htype⟩ := isLive_iff.1 hlive
    rw [← pointee?_of_valueType hp htype] at hpoints
    obtain ⟨t, ht⟩ := Option.isSome_iff_exists.1 hpoints
    refine ⟨t, u, action_bind_eq_ok.2 ⟨type, u, htype, ?_⟩⟩
    simp only [get_bind_eq, ht]
    rfl

/-- An instruction has a result type if and only if its operands admit it. -/
theorem exists_resultType_iff (hp : p.Signed) {kind : InstKind} :
    (∃ t q, resultType kind p = .ok t q) ↔ p.Admits kind := by
  cases kind with
  | alloca allocated => exact iff_of_true ⟨_, _, rfl⟩ trivial
  | load ptr => exact exists_pointeeOf_iff hp
  | store ptr value =>
    rw [Admits, ← exists_pointeeOf_iff hp]
    -- What is stored is not looked at, and `void` can always be entered.
    constructor
    · rintro ⟨t, q, h⟩
      obtain ⟨type, u, hpointee, -⟩ := action_bind_eq_ok.1 h
      exact ⟨type, u, hpointee⟩
    · rintro ⟨type, u, hpointee⟩
      exact ⟨_, _, action_bind_eq_ok.2 ⟨type, u, hpointee, rfl⟩⟩
  | binary op lhs rhs => exact isLive_iff.symm
  | call callee args =>
    simp only [resultType, get_bind_eq, Admits, hasFunction, paramsOf]
    cases hf : p.function? callee with
    | none =>
      refine iff_of_false ?_ (by simp)
      rintro ⟨t, q, h⟩
      cases h
    | some f =>
      obtain ⟨s, hs⟩ := Option.isSome_iff_exists.1 (hp callee f hf)
      simp only [hs, Option.bind_some, Option.map_some, Option.getD_some, Option.isSome_some, true_and]
      split
      · next hlen => exact iff_of_true ⟨_, _, rfl⟩ hlen
      · next hlen =>
        refine iff_of_false ?_ hlen
        rintro ⟨t, q, h⟩
        cases h
  | ret value => exact iff_of_true ⟨_, _, rfl⟩ trivial

end Program

/-! ## Places -/

/-- Where an instruction is to be inserted. -/
inductive Place where
  | position (function : Handle .function) (pos : Nat)
  | last (function : Handle .function)
  | after (anchor : Handle .inst)
  | before (anchor : Handle .inst)
deriving DecidableEq, Repr

namespace Place

/-- Whether the function or the anchor is there. -/
def isThere (p : Program) : Place → Bool
  | .position f _ | .last f => p.hasFunction f
  | .after a | .before a => p.hasInst a

end Place

namespace Program

variable {p q : Program}

def insert : Place → InstKind → Edit ProgramError (Handle .inst)
  | .position f pos => insertAt f pos
  | .last f => append f
  | .after a => insertAfter a
  | .before a => insertBefore a

/-- An instruction has a position in a function if and only if it is there. -/
theorem position_cases (hp : p.Consistent) (a : Handle .inst) :
    (p.hasInst a = false ∧ p.position? a = none) ∨
      p.hasInst a ∧ ∃ f pos, p.hasFunction f ∧ p.position? a = some (f, pos) := by
  cases hi : p.inst? a with
  | none => simp [hasInst, position?, hi]
  | some i =>
    obtain ⟨g, hg, -⟩ := hp.parent a i hi
    obtain ⟨pos, hpos, -⟩ := exists_position a (mem_body_of_inst? hp hi) (nodup_body hp i.parent)
    have hposition : p.position? a = some (i.parent, pos) := by simp [position?, hi, hpos]
    exact .inr ⟨Option.isSome_of_eq_some hi, i.parent, pos, Option.isSome_of_eq_some hg, hposition⟩

/-- What is inserted at a place is inserted at a position of a function, and nothing if the place is not there. -/
theorem insert_cases (place : Place) (kind : InstKind) (hp : p.Consistent) :
    (place.isThere p = false ∧ ∃ cause, insert place kind p = .error cause p) ∨
      place.isThere p ∧ ∃ f pos, p.hasFunction f ∧ insert place kind p = insertAt f pos kind p := by
  cases place with
  | position f pos =>
    cases hf : p.hasFunction f with
    | false => exact .inl ⟨hf, _, insertAt_of_not hf⟩
    | true => exact .inr ⟨hf, f, pos, hf, rfl⟩
  | last f =>
    cases hf : p.function? f with
    | none =>
      refine .inl ⟨by simp [Place.isThere, hasFunction, hf], .unknownFunction f, ?_⟩
      simp only [insert, append, get_bind_eq, hf]
      rfl
    | some x =>
      have hlive : p.hasFunction f := Option.isSome_of_eq_some hf
      refine .inr ⟨hlive, f, x.body.length, hlive, ?_⟩
      simp only [insert, append, get_bind_eq, hf]
  | after a =>
    rcases position_cases hp a with ⟨ha, hposition⟩ | ⟨ha, f, pos, hf, hposition⟩
    · exact .inl ⟨ha, .unknownInst a, by simp only [insert, insertAfter_eq, hposition]⟩
    · exact .inr ⟨ha, f, pos + 1, hf, by simp only [insert, insertAfter_eq, hposition]⟩
  | before a =>
    rcases position_cases hp a with ⟨ha, hposition⟩ | ⟨ha, f, pos, hf, hposition⟩
    · exact .inl ⟨ha, .unknownInst a, by simp only [insert, insertBefore_eq, hposition]⟩
    · exact .inr ⟨ha, f, pos, hf, by simp only [insert, insertBefore_eq, hposition]⟩

theorem exists_insertAt_iff {f : Handle .function} {pos : Nat} {kind : InstKind} (hf : p.hasFunction f) :
    (∃ h q, insertAt f pos kind p = .ok h q) ↔ ∃ t q, resultType kind p = .ok t q := by
  rw [insertAt_eq hf]
  cases resultType kind p with
  | ok t q => exact iff_of_true ⟨_, _, rfl⟩ ⟨_, _, rfl⟩
  | error cause q => simp

/-! ## Requests -/

/-- An edit that is asked for, or the type of a value. -/
inductive Request where
  | addFunction (name : String) (type : Handle .type)
  | ensureFunction (name : String) (type : Handle .type)
  | insert (place : Place) (kind : InstKind)
  | eraseGlobal (h : Handle .global)
  | eraseFunction (h : Handle .function)
  | eraseInst (h : Handle .inst)
  | setFunctionMetadata (h : Handle .function) (kind : String) (node : Option (Handle .node))
  | setInstMetadata (h : Handle .inst) (kind : String) (node : Option (Handle .node))
  | valueType (v : Value)
deriving DecidableEq, Repr

def Request.run : Request → Edit ProgramError Unit
  | .addFunction name type => discard (Program.addFunction name type)
  | .ensureFunction name type => discard (Program.ensureFunction name type)
  | .insert place kind => discard (Program.insert place kind)
  | .eraseGlobal h => discard (Program.eraseGlobal h)
  | .eraseFunction h => discard (Program.eraseFunction h)
  | .eraseInst h => discard (Program.eraseInst h)
  | .setFunctionMetadata h kind node => Program.setFunctionMetadata h kind node
  | .setInstMetadata h kind node => Program.setInstMetadata h kind node
  | .valueType v => discard (Program.valueType v)

section

variable {α : Type} {cause : ProgramError}

theorem eq_error_of_discard {e : Edit ProgramError α} (h : discard e p = .error cause q) : e p = .error cause q := by
  rcases action_bind_eq_error.1 h with h | ⟨x, u, -, h⟩
  · exact h
  · cases h

theorem addFunction_refused {name : String} {type : Handle .type} (h : addFunction name type p = .error cause q) :
    q = p := by
  unfold addFunction at h
  split at h
  · cases h
    rfl
  · split at h <;> cases h
    rfl

theorem insert_refused (hp : p.Consistent) {place : Place} {kind : InstKind}
    (h : insert place kind p = .error cause q) : p.EntersTypes q := by
  rcases insert_cases place kind hp with ⟨-, cause', hrun⟩ | ⟨-, f, pos, hf, hrun⟩
  · rw [hrun] at h
    cases h
    exact .refl p
  · have henters := along_resultType (fun t p _ => entersTypes_type t p) kind (fun _ _ => entersTypes_type _) p
    rw [hrun, insertAt_eq hf] at h
    cases hr : resultType kind p with
    | ok t u =>
      rw [hr] at h
      cases h
    | error cause' u =>
      rw [hr] at h henters
      cases h
      exact henters

/-- What a request needs is looked up before anything but types is changed. -/
theorem Request.refused (hp : p.Consistent) {r : Request} (h : r.run p = .error cause q) : p.EntersTypes q := by
  cases r with
  | addFunction name type => exact addFunction_refused (eq_error_of_discard h) ▸ .refl p
  | ensureFunction name type =>
    have h := eq_error_of_discard h
    unfold Program.ensureFunction at h
    split at h
    · cases h
    · exact addFunction_refused h ▸ .refl p
  | insert place kind => exact insert_refused hp (eq_error_of_discard h)
  | eraseGlobal | eraseFunction | eraseInst =>
    have h := eq_error_of_discard h
    simp only [Program.eraseGlobal, Program.eraseFunction, Program.eraseInst] at h
    split at h <;> cases h
    exact .refl p
  | setFunctionMetadata | setInstMetadata =>
    simp only [run, Program.setFunctionMetadata, Program.setInstMetadata] at h
    split at h <;> cases h
    exact .refl p
  | valueType v =>
    have henters := along_valueType (fun t p _ => entersTypes_type t p) v p
    rw [eq_error_of_discard h] at henters
    exact henters

end

/-- A request that is refused leaves nothing but types. An insertion is refused unless there is a place for the
instruction, and its operands admit it. -/
theorem requests_refused (hp : p.Reachable) :
    (∀ (r : Request) (cause : ProgramError) (q : Program), r.run p = .error cause q → p.EntersTypes q) ∧
      (∀ kind, (∃ t q, resultType kind p = .ok t q) ↔ p.Admits kind) ∧
      ∀ place kind, (∃ h q, insert place kind p = .ok h q) ↔ place.isThere p ∧ p.Admits kind := by
  have hadmits : ∀ kind, (∃ t q, resultType kind p = .ok t q) ↔ p.Admits kind :=
    fun kind => exists_resultType_iff hp.signed
  refine ⟨fun r cause q h => r.refused hp.consistent h, hadmits, fun place kind => ?_⟩
  rcases insert_cases place kind hp.consistent with ⟨hgone, cause, hrun⟩ | ⟨hthere, f, pos, hf, hrun⟩
  · simp [hgone, hrun]
  · rw [hrun, exists_insertAt_iff hf, hadmits]
    exact ⟨fun h => ⟨hthere, h⟩, And.right⟩

/-- A program with a function and some bytes, whose type it does not have yet. -/
def carrying : Program :=
  [.type .void, .type (.function ⟨0⟩ []), .addFunction "main" ⟨1⟩, .constant (.bytes [1, 2])].foldl ProgramOp.apply
    (.empty "m")

/-- Bytes are no address, but it takes their type to see this. The right operand of a sum is not looked at. -/
theorem requests_refused_bytes :
    carrying.Reachable ∧
      (∃ cause q, (Request.insert (.last ⟨0⟩) (.load (.constant ⟨0⟩))).run carrying = .error cause q ∧
        q ≠ carrying ∧ carrying.EntersTypes q) ∧
      (∃ h q, insert (.last ⟨0⟩) (.binary .add (.constant ⟨0⟩) (.inst ⟨7⟩)) carrying = .ok h q) ∧
      ¬ ∃ t q, resultType (.call ⟨0⟩ [.constant ⟨0⟩]) carrying = .ok t q := by
  have hreach : carrying.Reachable := reachable_foldl _ _
  obtain ⟨hleft, hadmits, hinsert⟩ := requests_refused hreach
  have hrefused : ∃ cause q, (Request.insert (.last ⟨0⟩) (.load (.constant ⟨0⟩))).run carrying = .error cause q ∧
      q ≠ carrying := by decide
  obtain ⟨cause, q, hrun, hne⟩ := hrefused
  refine ⟨hreach, ⟨cause, q, hrun, hne, hleft _ cause q hrun⟩, (hinsert _ _).2 (by decide), ?_⟩
  exact fun h => absurd ((hadmits _).1 h) (by decide)

end Program

end ShaderModule
