import ShaderModule.Proofs.Record.Cell

/-!
# The law of layouts

What a slot does to a record is its meaning: to copy one part of a record into another one. A slot
is lawful if reading back what was written for a record copies that part. Writing and reading a
layout is then copying all its parts into the blank record, so the law of a layout follows from
that of its slots and from a fact about records in which no program occurs.
-/

namespace ShaderModule

variable {ρ : Type}

/-! ## Slots -/

section Fields

variable {α σ : Type} (c : Cell α) (view : ρ → α) (update : ρ → α → ρ) (f : Slot ρ) (minor : UInt32)
  (fault? : ρ → Option Fault) (x : ρ)

@[simp]
theorem Cell.field_since : (c.field view update).since = 0 := rfl

@[simp]
theorem Cell.field_put : (c.field view update).put x = c.put (view x) := rfl

@[simp]
theorem Slot.added_since : (f.added minor).since = minor := rfl

@[simp]
theorem Slot.added_put : (f.added minor).put x = f.put x := rfl

@[simp]
theorem Slot.checked_since : (f.checked fault?).since = f.since := rfl

@[simp]
theorem Slot.checked_put : (f.checked fault?).put x = f.put x := rfl

@[simp]
theorem Slot.second_since : (f.second : Slot (σ × ρ)).since = f.since := rfl

end Fields

/-- What a slot means for records. -/
structure Slot.Meaning (ρ : Type) where
  /-- Whether the part of a record can be put. -/
  shape : ρ → Prop
  /-- The entities that the part refers to. -/
  refs  : ρ → List Entity
  /-- Copies the part of the first record into the second. -/
  copy  : ρ → ρ → Except Fault ρ

/-- Reading what was put for a record copies a part of it; and whatever is read could have been put. -/
structure Slot.Lawful (f : Slot ρ) (m : Slot.Meaning ρ) : Prop where
  growing_parts   : ∀ x, Build.Growing (f.put x)
  growing_operand : ∀ x p, Build.Growing (f.put x p).1
  keeps : ∀ x y z p q, m.shape x → m.copy x y = .ok z → (f.put x p).2.Grows q →
    ((f.put x p).1 q).2.Keeps (m.refs x) (fun s => f.get s ((f.put x p).1 q).1 y) z
  reads : ∀ s op y z, f.get s op y = .ok z →
    ∃ x, m.shape x ∧ (∀ e ∈ m.refs x, s.program.has e) ∧ m.copy x y = .ok z

/-- Putting a field only enters contents. -/
structure Slot.Growing (f : Slot ρ) : Prop where
  parts   : ∀ x, Build.Growing (f.put x)
  operand : ∀ x p, Build.Growing (f.put x p).1

namespace Slot.Meaning

/-- One part of a record, seen by `view` and set by `update`. -/
def field {α : Type} (shape : α → Prop) (refs : α → List Entity) (view : ρ → α) (update : ρ → α → ρ) :
    Meaning ρ where
  shape x  := shape (view x)
  refs x   := refs (view x)
  copy x y := .ok (update y (view x))

section Field

variable {α : Type} (shape : α → Prop) (refs : α → List Entity) (view : ρ → α) (update : ρ → α → ρ)
  (x y : ρ)

@[simp]
theorem field_shape : (field shape refs view update).shape x = shape (view x) := rfl

@[simp]
theorem field_refs : (field shape refs view update).refs x = refs (view x) := rfl

@[simp]
theorem field_copy : (field shape refs view update).copy x y = .ok (update y (view x)) := rfl

end Field

/-- The record as far as it is copied is checked. -/
def checked (m : Meaning ρ) (fault? : ρ → Option Fault) : Meaning ρ :=
  { m with
    copy := fun x y => do
      let z ← m.copy x y
      match fault? z with
      | some fault => throw fault
      | none => return z }

@[simp]
theorem checked_shape (m : Meaning ρ) (fault? : ρ → Option Fault) (x : ρ) :
    (m.checked fault?).shape x = m.shape x := rfl

@[simp]
theorem checked_refs (m : Meaning ρ) (fault? : ρ → Option Fault) (x : ρ) :
    (m.checked fault?).refs x = m.refs x := rfl

theorem checked_copy {m : Meaning ρ} {fault? : ρ → Option Fault} {x y z : ρ}
    (h : m.copy x y = .ok z) (hz : fault? z = none) : (m.checked fault?).copy x y = .ok z := by
  refine bind_eq_ok.2 ⟨z, h, ?_⟩
  rw [hz]
  rfl

/-- A copy that was checked passes the check. -/
theorem passes_of_checked {m : Meaning ρ} {fault? : ρ → Option Fault} {x y z : ρ}
    (h : (m.checked fault?).copy x y = .ok z) : fault? z = none := by
  obtain ⟨w, -, h⟩ := bind_eq_ok.1 h
  cases hw : fault? w with
  | some fault =>
    rw [hw] at h
    cases h
  | none =>
    rw [hw] at h
    cases h
    exact hw

/-- A part of the second component. -/
def second {σ : Type} (m : Meaning ρ) : Meaning (σ × ρ) where
  shape x  := m.shape x.2
  refs x   := m.refs x.2
  copy x y := (fun z => (y.1, z)) <$> m.copy x.2 y.2

/-- Copying leaves what `view` sees as it is. -/
def Leaves {β : Type} (m : Meaning ρ) (view : ρ → β) : Prop :=
  ∀ x y z, m.copy x y = .ok z → view z = view y

@[simp]
theorem Leaves.checked {β : Type} {m : Meaning ρ} {view : ρ → β} (h : m.Leaves view)
    (fault? : ρ → Option Fault) : (m.checked fault?).Leaves view := by
  intro x y z hz
  obtain ⟨w, hw, hcheck⟩ := bind_eq_ok.1 hz
  cases hf : fault? w with
  | some fault =>
    rw [hf] at hcheck
    cases hcheck
  | none =>
    rw [hf] at hcheck
    cases hcheck
    exact h x y _ hw

/-- Setting a field leaves alone what does not depend on it. -/
@[simp]
theorem Leaves.field {α β : Type} {shape : α → Prop} {refs : α → List Entity} {view : ρ → α}
    {update : ρ → α → ρ} {seen : ρ → β} (h : ∀ y a, seen (update y a) = seen y) :
    (field shape refs view update).Leaves seen := by
  intro x y z hz
  cases hz
  exact h y (view x)

/-- No part. -/
def idle : Meaning ρ := ⟨anyShape, noRefs, fun _ y => .ok y⟩

@[simp]
theorem idle_shape (x : ρ) : idle.shape x := trivial

@[simp]
theorem idle_refs (x : ρ) : idle.refs x = [] := rfl

end Slot.Meaning

open Slot (Meaning)

theorem Cell.Lawful.field {α : Type} {c : Cell α} {shape : α → Prop} {refs : α → List Entity}
    (hc : c.Lawful shape refs) {view : ρ → α} {update : ρ → α → ρ}
    (hv : ∀ x a, view (update x a) = a) :
    (c.field view update).Lawful (.field shape refs view update) where
  growing_parts x := hc.growing_parts (view x)
  growing_operand x := hc.growing_operand (view x)
  keeps x y z p q hx hz hq := by
    cases hz
    exact (hc.keeps (view x) p q hx hq).map (update y)
  reads s op y z hz := by
    obtain ⟨a, ha, rfl⟩ := map_eq_ok.1 hz
    obtain ⟨hshape, hrefs⟩ := hc.reads s op a ha
    refine ⟨update y a, ?_, ?_, ?_⟩
    · simpa only [Meaning.field_shape, hv] using hshape
    · simpa only [Meaning.field_refs, hv] using hrefs
    · simp only [Meaning.field_copy, hv]

namespace Slot.Lawful

variable {f : Slot ρ} {m : Meaning ρ}

theorem added (hf : f.Lawful m) (minor : UInt32) : (f.added minor).Lawful m :=
  ⟨hf.growing_parts, hf.growing_operand, hf.keeps, hf.reads⟩

theorem checked (hf : f.Lawful m) (fault? : ρ → Option Fault) :
    (f.checked fault?).Lawful (m.checked fault?) where
  growing_parts := hf.growing_parts
  growing_operand := hf.growing_operand
  keeps x y z p q hx hz hq s hs hm he := by
    obtain ⟨w, hw, hcheck⟩ := bind_eq_ok.1 hz
    exact bind_eq_ok.2 ⟨w, hf.keeps x y w p q hx hw hq s hs hm he, hcheck⟩
  reads s op y z hz := by
    obtain ⟨w, hw, hcheck⟩ := bind_eq_ok.1 hz
    obtain ⟨x, hx, he, hcopy⟩ := hf.reads s op y w hw
    exact ⟨x, hx, he, bind_eq_ok.2 ⟨w, hcopy, hcheck⟩⟩

theorem second {σ : Type} (hf : f.Lawful m) : (f.second : Slot (σ × ρ)).Lawful m.second where
  growing_parts x := hf.growing_parts x.2
  growing_operand x := hf.growing_operand x.2
  keeps x y z p q hx hz hq := by
    obtain ⟨w, hw, rfl⟩ := map_eq_ok.1 hz
    exact (hf.keeps x.2 y.2 w p q hx hw hq).map fun v => (y.1, v)
  reads s op y z hz := by
    obtain ⟨w, hw, rfl⟩ := map_eq_ok.1 hz
    obtain ⟨x, hx, he, hcopy⟩ := hf.reads s op y.2 w hw
    exact ⟨(y.1, x), hx, he, map_eq_ok.2 ⟨w, hcopy, rfl⟩⟩

end Slot.Lawful

/-! ## Copying -/

/-- Copies the part at a position of a record, if there is one at that position. -/
def Slot.copyAt (ms : List (Meaning ρ)) (x y : ρ) (i : Nat) : Except Fault ρ :=
  match ms[i]? with
  | some m => m.copy x y
  | none => .ok y

/-- `z` comes of `y` by copying a part at each of the positions, each from a record of which it could
have been put. -/
def Slot.Copies (ms : List (Meaning ρ)) (live : Entity → Prop) : List Nat → ρ → ρ → Prop
  | [], y, z => z = y
  | i :: is, y, z => ∃ w,
    (∀ m, ms[i]? = some m → ∃ x, m.shape x ∧ (∀ e ∈ m.refs x, live e) ∧ m.copy x y = .ok w) ∧
    (ms[i]? = none → w = y) ∧ Copies ms live is w z

namespace Slot.Copies

variable {ms : List (Meaning ρ)} {live : Entity → Prop} {is : List Nat} {y z : ρ} {P : ρ → Prop}

/-- Copying a part of a record that fits keeps `P`. -/
def Preserves (live : Entity → Prop) (P : ρ → Prop) (m : Meaning ρ) : Prop :=
  ∀ x y z, m.shape x → (∀ e ∈ m.refs x, live e) → m.copy x y = .ok z → P y → P z

theorem invariant :
    ∀ {is : List Nat} {y : ρ}, (∀ i ∈ is, ∀ m, ms[i]? = some m → Preserves live P m) →
      Copies ms live is y z → P y → P z
  | [], _, _, hc, hy => hc ▸ hy
  | i :: is, y, h, hc, hy => by
    obtain ⟨w, hsome, hnone, hc⟩ := hc
    refine invariant (fun j hj => h j (List.mem_cons_of_mem _ hj)) hc ?_
    cases hi : ms[i]? with
    | none => exact hnone hi ▸ hy
    | some m =>
      obtain ⟨x, hx, he, hcopy⟩ := hsome m hi
      exact h i List.mem_cons_self m hi x y w hx he hcopy hy

/-- What one part brings about and all later ones keep holds in the end. -/
theorem establish {i : Nat} {after : List Nat}
    (h : ∀ j ∈ after, ∀ m, ms[j]? = some m → Preserves live P m) {m : Meaning ρ} (hm : ms[i]? = some m)
    (hi : ∀ x y z, m.shape x → (∀ e ∈ m.refs x, live e) → m.copy x y = .ok z → P z) :
    ∀ {before : List Nat} {y : ρ}, Copies ms live (before ++ i :: after) y z → P z
  | [], y, hc => by
    obtain ⟨w, hsome, -, hc⟩ := hc
    obtain ⟨x, hx, he, hcopy⟩ := hsome m hm
    exact invariant h hc (hi x y w hx he hcopy)
  | _ :: _, _, hc => by
    obtain ⟨w, -, -, hc⟩ := hc
    exact establish h hm hi hc

end Slot.Copies

/-! ## Layouts -/

theorem rel_getElem? {α β : Type} {R : α → β → Prop} {xs : List α} {ys : List β} (h : List.Forall₂ R xs ys)
    (i : Nat) : Option.Rel R xs[i]? ys[i]? := by
  induction h generalizing i with
  | nil => exact .none
  | cons hxy _ ih =>
    cases i with
    | zero => exact .some hxy
    | succ i => exact ih i

theorem getElem?_forall₂ {α β : Type} {R : α → β → Prop} {xs : List α} {ys : List β}
    (h : List.Forall₂ R xs ys) {i : Nat} {x : α} {y : β} (hx : xs[i]? = some x)
    (hy : ys[i]? = some y) : R x y := by
  have hxy := rel_getElem? h i
  rw [hx, hy] at hxy
  cases hxy
  assumption

/-- `List.rel_append` where the lists stand appended. -/
theorem forall₂_append {α β : Type} {R : α → β → Prop} {xs xs' : List α} {ys ys' : List β}
    (h : List.Forall₂ R xs ys) (h' : List.Forall₂ R xs' ys') :
    List.Forall₂ R (xs ++ xs') (ys ++ ys') :=
  List.rel_append h h'

namespace Layout

variable {l : Layout ρ} {ms : List (Meaning ρ)}

theorem growing_of_lawful (hs : List.Forall₂ Slot.Lawful l.slots ms) : ∀ f ∈ l.slots, f.Growing := by
  intro f hf
  obtain ⟨m, -, hm⟩ := exists_forall₂ hs.flip hf
  exact ⟨hm.growing_parts, hm.growing_operand⟩

/-- Each operand of the record is built after all parts are. -/
theorem made_operand (hs : ∀ f ∈ l.slots, f.Growing) (x : ρ) (p : Program) :
    let parts := l.slots.mapM (fun f => f.put x) p
    (∀ b ∈ parts.1, Build.Growing b) ∧
      List.Forall₂ (Build.Made (fun f : Slot ρ => f.put x) p parts.2) l.slots parts.1 := by
  have hmade := Build.made_mapM (fun f hf => (hs f hf).parts x) p
  refine ⟨?_, hmade⟩
  intro b hb
  obtain ⟨f, hf, r, -, -, rfl⟩ := exists_forall₂ hmade hb
  exact (hs f hf).operand x r

theorem growing_write (hs : ∀ f ∈ l.slots, f.Growing) (x : ρ) : Build.Growing (l.write x) := by
  intro p
  have hparts : p.Grows (l.slots.mapM (fun f => f.put x) p).2 :=
    Build.Growing.mapM (fun f hf => (hs f hf).parts x) p
  have hops := Build.Growing.mapM (f := id) (made_operand hs x p).1
  exact hparts.trans ((hops _).trans (Build.growing_node _ _))

/-- The record that is written is a tuple with one operand for each slot, built when the parts of the slot
were there. -/
theorem write_eq (hs : ∀ f ∈ l.slots, f.Growing) (x : ρ) (p : Program) :
    ∃ ops, (l.write x p).2.node? (l.write x p).1 = some (.tuple ops) ∧
      ops.length = l.slots.length ∧
      ∀ (i : Nat) (f : Slot ρ) op, l.slots[i]? = some f → ops[i]? = some op →
        ∃ p₀ q₀ : Program, (f.put x p₀).2.Grows q₀ ∧ op = ((f.put x p₀).1 q₀).1 ∧
          ((f.put x p₀).1 q₀).2.Extends (l.write x p).2 := by
  obtain ⟨hgrow, hmade⟩ := made_operand hs x p
  generalize hb : l.slots.mapM (fun f => f.put x) p = b at hgrow hmade
  obtain ⟨parts, q⟩ := b
  -- First the parts of all slots are built and then their operands, each on top of the others.
  have hmade' := Build.made_mapM (f := id) hgrow q
  generalize ho : parts.mapM id q = o at hmade'
  obtain ⟨ops, r⟩ := o
  have hw : l.write x p = Build.tuple ops r := by
    simp only [write, bind, StateT.bind, hb]
    exact congrArg (fun o => Build.tuple o.1 o.2) ho
  rw [hw]
  have hlen : ops.length = l.slots.length := (hmade.length_eq.trans hmade'.length_eq).symm
  refine ⟨ops, Build.node?_node _ _, hlen, ?_⟩
  intro i f op hf hop
  have hi : i < parts.length := by
    have := (List.getElem?_eq_some_iff.1 hf).1
    exact hmade.length_eq ▸ this
  obtain ⟨p₀, -, hq, hpart⟩ := getElem?_forall₂ hmade hf (List.getElem?_eq_getElem hi)
  obtain ⟨q₀, hq₀, hr, rfl⟩ := getElem?_forall₂ hmade' (List.getElem?_eq_getElem hi) hop
  rw [hpart] at hr ⊢
  exact ⟨p₀, q₀, hq.trans hq₀, rfl, (hr.trans (Build.growing_node _ r)).toExtends⟩

/-- At any minor version that a writer may find, a layout has all its fields. -/
theorem arity_of_le (h : ∀ f ∈ l.slots, f.since ≤ Version.current.minor) {minor : UInt32}
    (hm : Version.current.minor ≤ minor) : l.arity minor = l.slots.length := by
  rw [arity, List.countP_eq_length]
  intro f hf
  simpa using UInt32.le_trans (h f hf) hm

theorem record_eq {s : Source} {what : String} {n : Handle .node} {ops : List Operand}
    (hn : s.program.node? n = some (.tuple ops)) : s.record what ops.length n = .ok ops := by
  simp [Source.record, Source.operands_eq hn, bind, Except.bind, pure, Except.pure]

theorem length_of_record {s : Source} {what : String} {arity : Nat} {n : Handle .node}
    {ops : List Operand} (h : s.record what arity n = .ok ops) : ops.length = arity := by
  obtain ⟨all, -, h⟩ := bind_eq_ok.1 h
  simp only [bind, Except.bind] at h
  split at h
  · cases h
  · cases h
    rw [List.length_take]
    omega

/-- A field that was written from a record is read as that record has it. -/
theorem readField_write (hs : List.Forall₂ Slot.Lawful l.slots ms) {refs : ρ → List Entity} {x : ρ} {p : Program}
    {ops : List Operand} {s : Source} (hx : ∀ m ∈ ms, m.shape x ∧ ∀ e ∈ m.refs x, e ∈ refs x)
    (hlen : ops.length = l.slots.length)
    (hops : ∀ (i : Nat) (f : Slot ρ) op, l.slots[i]? = some f → ops[i]? = some op →
      ∃ p₀ q₀ : Program, (f.put x p₀).2.Grows q₀ ∧ op = ((f.put x p₀).1 q₀).1 ∧
        ((f.put x p₀).1 q₀).2.Extends p)
    (hext : p.Extends s.program) (hm : Version.current.minor ≤ s.minor) (he : ∀ e ∈ refs x, s.program.has e)
    {y z : ρ} {i : Nat} (hz : Slot.copyAt ms x y i = .ok z) : l.readField s ops y i = .ok z := by
  unfold Slot.copyAt at hz
  cases hi : ms[i]? with
  | none =>
    rw [hi] at hz
    have hf : l.slots[i]? = none := by
      rw [List.getElem?_eq_none_iff, hs.length_eq]
      exact List.getElem?_eq_none_iff.1 hi
    simpa only [readField, hf] using hz
  | some m =>
    rw [hi] at hz
    have hlt : i < l.slots.length := by
      rw [hs.length_eq]
      exact (List.getElem?_eq_some_iff.1 hi).1
    have hf := List.getElem?_eq_getElem hlt
    have hop := List.getElem?_eq_getElem (hlen.symm ▸ hlt : i < ops.length)
    obtain ⟨hshape, hrefs⟩ := hx m (List.mem_of_getElem? hi)
    obtain ⟨p₀, q₀, hq₀, heq, hw⟩ := hops i _ _ hf hop
    have hk := (getElem?_forall₂ hs hf hi).keeps x y z p₀ q₀ hshape hz hq₀
    simp only [readField, hf, hop]
    rw [heq]
    exact hk s (hw.trans hext) hm fun e h => he e (hrefs e h)

/-- Copying what a record was written from is what reading it does. -/
theorem keeps_write (hs : List.Forall₂ Slot.Lawful l.slots ms)
    (hsince : ∀ f ∈ l.slots, f.since ≤ Version.current.minor) {refs : ρ → List Entity} (x : ρ)
    (p : Program) (hx : ∀ m ∈ ms, m.shape x ∧ ∀ e ∈ m.refs x, e ∈ refs x)
    (hcopy : l.order.foldlM (Slot.copyAt ms x) l.blank = .ok x) :
    (l.write x p).2.Keeps (refs x) (fun s => l.read s (l.write x p).1) x := by
  obtain ⟨ops, hnode, hlen, hops⟩ := write_eq (growing_of_lawful hs) x p
  intro s hext hm he
  have hrec : s.record l.what (l.arity s.minor) (l.write x p).1 = .ok ops := by
    rw [arity_of_le hsince hm, ← hlen]
    exact record_eq (hext.node? hnode)
  refine bind_eq_ok.2 ⟨ops, hrec, ?_⟩
  revert hcopy
  -- By induction along the order of the fields, from whatever record has been reached.
  generalize l.blank = y
  induction l.order generalizing y with
  | nil => exact id
  | cons i is ih =>
    intro hcopy
    obtain ⟨z, hz, hcopy⟩ := bind_eq_ok.1 hcopy
    exact bind_eq_ok.2 ⟨z, readField_write hs hx hlen hops hext hm he hz, ih z hcopy⟩

/-- Whatever a field is read as is copied from a record of which it could have been written, and where no
field is read the record stays. -/
theorem copied_of_readField (hs : List.Forall₂ Slot.Lawful l.slots ms) {s : Source} {ops : List Operand}
    {y z : ρ} {i : Nat} (h : l.readField s ops y i = .ok z) :
    (∀ m, (ms.take ops.length)[i]? = some m →
      ∃ x, m.shape x ∧ (∀ e ∈ m.refs x, s.program.has e) ∧ m.copy x y = .ok z) ∧
    ((ms.take ops.length)[i]? = none → z = y) := by
  constructor
  · intro m hm
    have hi : i < ops.length := by
      have := (List.getElem?_eq_some_iff.1 hm).1
      rw [List.length_take] at this
      omega
    rw [List.getElem?_take_of_lt hi] at hm
    have hlt : i < l.slots.length := by
      rw [hs.length_eq]
      exact (List.getElem?_eq_some_iff.1 hm).1
    have hf := List.getElem?_eq_getElem hlt
    simp only [readField, hf, List.getElem?_eq_getElem hi] at h
    exact (getElem?_forall₂ hs hf hm).reads s _ y z h
  · intro hm
    have hnone : l.slots[i]? = none ∨ ops[i]? = none := by
      rw [List.getElem?_eq_none_iff, List.length_take] at hm
      rw [List.getElem?_eq_none_iff, List.getElem?_eq_none_iff, hs.length_eq]
      omega
    unfold readField at h
    rcases hnone with hnone | hnone
    · rw [hnone] at h
      exact (Except.ok.inj h).symm
    · rw [hnone] at h
      split at h
      · next hop => cases hop
      · split at h
        · exact (Except.ok.inj h).symm
        · cases h
      · exact (Except.ok.inj h).symm

/-- Whatever a layout reads is copied from records of which it could have been written. -/
theorem copies_of_read (hs : List.Forall₂ Slot.Lawful l.slots ms) {s : Source} {n : Handle .node}
    {z : ρ} (h : l.read s n = .ok z) :
    Slot.Copies (ms.take (l.arity s.minor)) (s.program.has ·) l.order l.blank z := by
  obtain ⟨ops, hrec, h⟩ := bind_eq_ok.1 h
  rw [← length_of_record hrec]
  revert h
  -- By induction along the order of the fields, from whatever record has been reached.
  generalize l.blank = y
  induction l.order generalizing y with
  | nil =>
    intro h
    exact (Except.ok.inj h).symm
  | cons i is ih =>
    intro h
    obtain ⟨w, hw, h⟩ := bind_eq_ok.1 h
    obtain ⟨hcopied, hkept⟩ := copied_of_readField hs hw
    exact ⟨w, hcopied, hkept, ih w h⟩

/-- The law of a layout from that of its slots: a record that fits is the copy of itself, and a copy of
parts that fit, fits. -/
theorem lawful_of_slots (hs : List.Forall₂ Slot.Lawful l.slots ms)
    (hsince : ∀ f ∈ l.slots, f.since ≤ Version.current.minor) {shape : ρ → Prop}
    {refs : ρ → List Entity}
    (hfit : ∀ x, shape x → (∀ m ∈ ms, m.shape x ∧ ∀ e ∈ m.refs x, e ∈ refs x) ∧
      l.order.foldlM (Slot.copyAt ms x) l.blank = .ok x)
    (hread : ∀ live minor z, Slot.Copies (ms.take (l.arity minor)) live l.order l.blank z →
      shape z ∧ ∀ e ∈ refs z, live e) :
    l.Lawful shape refs where
  growing := growing_write (growing_of_lawful hs)
  operands := write_eq (growing_of_lawful hs)
  keeps x p hx := keeps_write hs hsince x p (hfit x hx).1 (hfit x hx).2
  reads s _ x h := hread _ s.minor x (copies_of_read hs h)

/-- The law of a layout whose records have any shape and refer to nothing. -/
theorem lawful_of_plain (hs : List.Forall₂ Slot.Lawful l.slots ms)
    (hsince : ∀ f ∈ l.slots, f.since ≤ Version.current.minor)
    (hfit : ∀ x, (∀ m ∈ ms, m.shape x ∧ ∀ e ∈ m.refs x, e ∈ noRefs x) ∧
      l.order.foldlM (Slot.copyAt ms x) l.blank = .ok x) :
    l.Lawful anyShape noRefs :=
  lawful_of_slots hs hsince (fun x _ => hfit x) fun _ _ _ _ => ⟨trivial, by simp⟩

/-! ### What holds of every record that is read -/

theorem arity_zero_le (minor : UInt32) : l.arity 0 ≤ l.arity minor := by
  refine List.countP_mono_left ?_
  intro f _ hf
  simp only [decide_eq_true_eq] at hf ⊢
  exact UInt32.le_trans hf UInt32.zero_le

variable {live : Entity → Prop} {minor : UInt32} {z : ρ} {P : ρ → Prop}

/-- What every slot keeps holds of whatever is read, if it holds of the blank record. -/
theorem invariant_of_copies (h : ∀ m ∈ ms, Slot.Copies.Preserves live P m)
    (hc : Slot.Copies (ms.take (l.arity minor)) live l.order l.blank z) (hblank : P l.blank) : P z :=
  Slot.Copies.invariant (fun _ _ m hm => h m (List.mem_of_mem_take (List.mem_of_getElem? hm))) hc hblank

/-- What a slot of all versions brings about and all that are read later keep holds of whatever is
read. -/
theorem establish_of_copies (before : List Nat) (i : Nat) (after : List Nat) {m : Meaning ρ}
    (hc : Slot.Copies (ms.take (l.arity minor)) live l.order l.blank z)
    (horder : l.order = before ++ i :: after) (hi : i < l.arity 0) (hm : ms[i]? = some m)
    (hput : ∀ x y z, m.shape x → (∀ e ∈ m.refs x, live e) → m.copy x y = .ok z → P z)
    (h : ∀ j ∈ after, ∀ m, ms[j]? = some m → Slot.Copies.Preserves live P m) : P z := by
  rw [horder] at hc
  refine Slot.Copies.establish ?_ ?_ hput hc
  · intro j hj m hm
    refine h j hj m ?_
    rw [List.getElem?_take] at hm
    split at hm
    · exact hm
    · cases hm
  · rw [List.getElem?_take_of_lt (Nat.lt_of_lt_of_le hi (arity_zero_le minor))]
    exact hm

/-- What no slot touches is as in the blank record. -/
theorem blank_of_copies {β : Type} (view : ρ → β) (h : ∀ m ∈ ms, m.Leaves view)
    (hc : Slot.Copies (ms.take (l.arity minor)) live l.order l.blank z) : view z = view l.blank := by
  refine invariant_of_copies (P := fun z => view z = view l.blank) ?_ hc rfl
  intro m hm x y w _ _ hw hy
  exact (h m hm x y w hw).trans hy

/-- A field of all versions that no later slot touches can be put again in whatever is read. -/
theorem field_of_copies {α : Type} (before : List Nat) (i : Nat) (after : List Nat) {shape : α → Prop}
    {refs : α → List Entity} {view : ρ → α} {update : ρ → α → ρ}
    (hc : Slot.Copies (ms.take (l.arity minor)) live l.order l.blank z)
    (horder : l.order = before ++ i :: after) (hi : i < l.arity 0)
    (hm : ms[i]? = some (.field shape refs view update))
    (h : ∀ j ∈ after, ∀ m, ms[j]? = some m → m.Leaves view)
    (hv : ∀ x a, view (update x a) = a) :
    shape (view z) ∧ ∀ e ∈ refs (view z), live e := by
  refine establish_of_copies (P := fun z => shape (view z) ∧ ∀ e ∈ refs (view z), live e)
    before i after hc horder hi hm ?_ ?_
  · intro x y w hx he hw
    cases hw
    rw [hv]
    exact ⟨hx, he⟩
  · intro j hj m hm x y w _ _ hw hy
    rw [h j hj m hm x y w hw]
    exact hy

end Layout

/-! ## Cells that hold records -/

/-- Every member of a list has a shape that may depend on its position. -/
def allShape {α : Type} (shape : Nat → α → Prop) (xs : List α) : Prop :=
  ∀ x i, (x, i) ∈ xs.zipIdx → shape i x

@[simp]
theorem allShape_anyShape {α : Type} (xs : List α) : allShape (fun _ => anyShape) xs :=
  fun _ _ _ => trivial

namespace Cell

variable {α : Type} {c : Cell α} {shape : α → Prop} {refs : α → List Entity}

theorem Lawful.early (hc : c.Lawful shape refs) : c.early.Lawful shape refs where
  growing_parts x p := (hc.growing_parts x p).trans (hc.growing_operand x p _)
  growing_operand _ _ := .pure _
  keeps x p q hx hq := by
    have hk := hc.keeps x p _ hx (.refl _)
    exact hk.extend hq.toExtends
  reads := hc.reads

theorem Lawful.late (hc : c.Lawful shape refs) : c.late.Lawful shape refs where
  growing_parts _ := .pure _
  growing_operand x _ q := (hc.growing_parts x q).trans (hc.growing_operand x q _)
  keeps x _ q hx _ := hc.keeps x q _ hx (.refl _)
  reads := hc.reads

theorem lawful_record (missing : String) {l : Layout α} (hl : l.Lawful shape refs) :
    (record missing l).Lawful shape refs := by
  refine lawful_plain (fun x => .map _ (hl.growing x)) ?_ ?_
  · intro x p hx s
    exact hl.keeps x p hx s
  · intro s op x h
    cases op with
    | none => cases h
    | some n => exact hl.reads s n x h

theorem lawful_words (whole each : String) : (words whole each).Lawful anyShape noRefs := by
  have hg : ∀ n : UInt32, Build.Growing (wordOperand n) := growing_wordOperand
  refine lawful_plain ?_ ?_ fun _ _ _ _ => ⟨trivial, by simp⟩
  · intro ns
    exact .bind (.mapM fun n _ => hg n) fun _ => .bind (Build.growing_node _) fun _ => .pure _
  · intro ns p _ s hs _ _
    have hmade := Build.made_mapM (fun n (_ : n ∈ ns) => hg n) p
    have hnode := Build.node?_node (.tuple (ns.mapM wordOperand p).1) (ns.mapM wordOperand p).2
    have hgrow := Build.growing_node (.tuple (ns.mapM wordOperand p).1) (ns.mapM wordOperand p).2
    refine bind_eq_ok.2 ⟨_, Source.operands_eq (hs.node? hnode), mapM_eq_ok.2 ?_⟩
    refine hmade.flip.imp ?_
    rintro op n ⟨r, -, hr, rfl⟩
    exact word_wordOperand n r (hr.toExtends.trans (hgrow.toExtends.trans hs)) each

/-! ### Lists -/

section List

variable {Q : Operand × Nat → α → Prop}

theorem forall₂_operands {R : α × Nat → Handle .node → Prop} :
    ∀ {xs : List α} {hs : List (Handle .node)} {k : Nat}, List.Forall₂ R (xs.zipIdx k) hs →
      (∀ x i h, (x, i) ∈ xs.zipIdx k → R (x, i) h → Q (some h, i) x) →
      List.Forall₂ Q ((hs.map some).zipIdx k) xs
  | [], _, _, .nil, _ => .nil
  | x :: xs, _ :: _, k, .cons hx hxs, hq => by
    refine .cons (hq x k _ List.mem_cons_self hx) (forall₂_operands hxs ?_)
    intro y i h hy
    exact hq y i h (List.mem_cons_of_mem _ hy)

theorem exists_operand :
    ∀ {ops : List Operand} {xs : List α} {k : Nat}, List.Forall₂ Q (ops.zipIdx k) xs →
      ∀ x i, (x, i) ∈ xs.zipIdx k → ∃ op, Q (op, i) x
  | [], _, _, .nil, _, _, hx => by cases hx
  | op :: ops, _ :: _, k, .cons hq h, x, i, hx => by
    rcases List.mem_cons.1 hx with heq | hx
    · cases heq
      exact ⟨op, hq⟩
    · exact exists_operand h x i hx

end List

theorem growing_listOperand (hs : List (Handle .node)) : Build.Growing (listOperand hs) := by
  unfold listOperand
  split
  · exact .pure _
  · exact .map _ (Build.growing_node _)

/-- The operand that lists some nodes reads as the list of them. -/
theorem list_listOperand (hs : List (Handle .node)) (p : Program) {s : Source}
    (hext : (listOperand hs p).2.Extends s.program) :
    s.list (listOperand hs p).1 = .ok (hs.map some) := by
  unfold listOperand at *
  split at hext
  · next hnil =>
    rw [if_pos hnil, List.isEmpty_iff.1 hnil]
    rfl
  · next hnil =>
    rw [if_neg hnil]
    exact Source.operands_eq (hext.node? (Build.node?_node (.tuple (hs.map some)) p))

/-- A list is lawful if the layouts of its records are, at each position. -/
theorem lawful_list (missing : Nat → String) {layout : Nat → Layout α} {shape : Nat → α → Prop}
    (hl : ∀ i, (layout i).Lawful (shape i) refs) :
    (list missing layout).Lawful (allShape shape) (·.flatMap refs) := by
  have hgrow : ∀ e : α × Nat, Build.Growing ((layout e.2).write e.1) := fun e => (hl e.2).growing e.1
  constructor
  case growing_parts =>
    intro xs
    exact .bind (.mapM fun e _ => hgrow e) fun _ => .pure _
  case growing_operand =>
    intro xs p
    exact growing_listOperand _
  case keeps =>
    intro xs p q hx hq
    have hmade := Build.made_mapM (fun e (_ : e ∈ xs.zipIdx) => hgrow e) p
    generalize hb : xs.zipIdx.mapM (fun e => (layout e.2).write e.1) p = b at hmade
    have hput : (list missing layout).put xs p = (listOperand b.1, b.2) := by
      rw [← hb]
      rfl
    rw [hput] at hq ⊢
    have hentries : List.Forall₂ (fun (e : Operand × Nat) x =>
        (listOperand b.1 q).2.Keeps (refs x) (fun s => readEntry missing layout s e.2 e.1) x)
        (b.1.map some).zipIdx xs := by
      refine forall₂_operands hmade ?_
      rintro x i h hmem ⟨r, -, hr, rfl⟩
      have hk := ((hl i).keeps x r (hx x i hmem)).extend hr.toExtends
      exact hk.extend (hq.toExtends.trans (growing_listOperand _ q).toExtends)
    intro s hs hm he
    exact bind_eq_ok.2 ⟨_, list_listOperand _ q hs, Program.Keeps.mapM hentries s hs hm he⟩
  case reads =>
    intro s op xs h
    obtain ⟨ops, -, h⟩ := bind_eq_ok.1 h
    have hentry : ∀ x i, (x, i) ∈ xs.zipIdx → shape i x ∧ ∀ e ∈ refs x, s.program.has e := by
      intro x i hx
      obtain ⟨op, hop⟩ := exists_operand (mapM_eq_ok.1 h) x i hx
      cases op with
      | none => cases hop
      | some n => exact (hl i).reads s n x hop
    refine ⟨fun x i hx => (hentry x i hx).1, ?_⟩
    intro e he
    obtain ⟨x, hx, he⟩ := List.mem_flatMap.1 he
    rw [← List.zipIdx_map_fst 0 xs] at hx
    obtain ⟨⟨y, i⟩, hy, rfl⟩ := List.mem_map.1 hx
    exact (hentry y i hy).2 e he

end Cell

end ShaderModule
