import Mathlib.Data.List.Forall2
import ShaderModule.Proofs.Record.Growth

/-!
# The law of cells

A cell is lawful if what it puts is read back by every later reader: one whose program still holds
the nodes and constants of the program that was written, and the entities that the value refers
to. Conversely whatever a lawful cell reads has the shape that it can put, and refers only to
entities of the program that it was read from.
-/

namespace ShaderModule

/-! ## Outcomes -/

theorem bind_eq_ok {ε α β : Type} {x : Except ε α} {f : α → Except ε β} {b : β} :
    x >>= f = .ok b ↔ ∃ a, x = .ok a ∧ f a = .ok b := by
  cases x with
  | error e => simp [bind, Except.bind]
  | ok a => simp [bind, Except.bind]

theorem map_eq_ok {ε α β : Type} {x : Except ε α} {f : α → β} {b : β} :
    f <$> x = .ok b ↔ ∃ a, x = .ok a ∧ f a = b := by
  cases x with
  | error e => simp [Functor.map, Except.map]
  | ok a => simp [Functor.map, Except.map]

theorem mapM_eq_ok {ε α β : Type} {f : α → Except ε β} :
    ∀ {xs : List α} {ys : List β}, xs.mapM f = .ok ys ↔ List.Forall₂ (fun x y => f x = .ok y) xs ys
  | [], ys => by
    rw [List.mapM_nil, List.forall₂_nil_left_iff]
    exact ⟨fun h => (Except.ok.inj h).symm, fun h => h ▸ rfl⟩
  | x :: xs, ys => by
    rw [List.mapM_cons, bind_eq_ok, List.forall₂_cons_left_iff]
    constructor
    · rintro ⟨y, hy, h⟩
      obtain ⟨zs, hzs, h⟩ := bind_eq_ok.1 h
      exact ⟨y, zs, hy, mapM_eq_ok.1 hzs, (Except.ok.inj h).symm⟩
    · rintro ⟨y, zs, hy, hzs, rfl⟩
      exact ⟨y, hy, bind_eq_ok.2 ⟨zs, mapM_eq_ok.2 hzs, rfl⟩⟩

/-! ## Reading what a program holds -/

/-- `read` gives `x` on every source of a known layout that holds what `p` holds and the entities
`refs`. -/
def Program.Keeps {α : Type} (p : Program) (refs : List Entity) (read : Source → Except Fault α)
    (x : α) : Prop :=
  ∀ s : Source, p.Extends s.program → Version.current.minor ≤ s.minor →
    (∀ e ∈ refs, s.program.has e) → read s = .ok x

namespace Program.Keeps

variable {α β : Type} {p q : Program} {refs refs' : List Entity} {read : Source → Except Fault α} {x : α}

theorem mono (h : p.Keeps refs read x) (hpq : p.Extends q) (hr : ∀ e ∈ refs, e ∈ refs') :
    q.Keeps refs' read x :=
  fun s hs hm he => h s (hpq.trans hs) hm fun e hmem => he e (hr e hmem)

theorem extend (h : p.Keeps refs read x) (hpq : p.Extends q) : q.Keeps refs read x :=
  h.mono hpq fun _ he => he

theorem map (h : p.Keeps refs read x) (f : α → β) : p.Keeps refs (fun s => f <$> read s) (f x) :=
  fun s hs hm he => map_eq_ok.2 ⟨x, h s hs hm he, rfl⟩

/-- Entries that are kept one by one are read one by one. -/
theorem forall₂ {γ : Type} {get : γ → Source → Except Fault α} {refsOf : α → List Entity}
    {ops : List γ} {xs : List α}
    (h : List.Forall₂ (fun op x => p.Keeps (refsOf x) (get op) x) ops xs) {s : Source}
    (hs : p.Extends s.program) (hm : Version.current.minor ≤ s.minor)
    (he : ∀ e ∈ xs.flatMap refsOf, s.program.has e) :
    List.Forall₂ (fun op x => get op s = .ok x) ops xs := by
  induction h with
  | nil => exact .nil
  | cons hx _ ih =>
    refine .cons (hx s hs hm fun e hmem => he e ?_) (ih fun e hmem => he e ?_)
    · exact List.mem_flatMap.2 ⟨_, List.mem_cons_self, hmem⟩
    · rw [List.flatMap_cons]
      exact List.mem_append_right _ hmem

/-- Entries that are kept one by one are kept together. -/
theorem mapM {γ : Type} {get : γ → Source → Except Fault α} {refsOf : α → List Entity}
    {ops : List γ} {xs : List α}
    (h : List.Forall₂ (fun op x => p.Keeps (refsOf x) (get op) x) ops xs) :
    p.Keeps (xs.flatMap refsOf) (fun s => ops.mapM fun op => get op s) xs :=
  fun _ hs hm he => mapM_eq_ok.2 (forall₂ h hs hm he)

end Program.Keeps

namespace Source

variable {s : Source} {what : String} {n : Handle .node} {k : Handle .constant}

theorem value_eq {v : Value} (hn : s.program.node? n = some (.value v)) :
    s.value what (some n) = .ok v := by
  simp [value, required, node, hn, bind, Except.bind, pure, Except.pure]

theorem constant_eq {c : Constant} (hn : s.program.node? n = some (.value (.constant k)))
    (hc : s.program.constant? k = some c) : s.constant what (some n) = .ok c := by
  simp [constant, value_eq hn, hc, bind, Except.bind, pure, Except.pure]

theorem global_eq_ok {op : Operand} {g : Handle .global} :
    s.global what op = .ok g ↔ s.value what op = .ok (.global g) ∧ s.program.hasGlobal g := by
  rw [global, bind_eq_ok]
  constructor
  · rintro ⟨v, hv, hg⟩
    cases v with
    | global h =>
      simp only at hg
      split at hg
      · next hh =>
        cases hg
        exact ⟨hv, hh⟩
      · cases hg
    | _ => cases hg
  · rintro ⟨hv, hh⟩
    refine ⟨_, hv, ?_⟩
    simp only [hh, if_true]
    rfl

theorem function_eq_ok {op : Operand} {f : Handle .function} :
    s.function what op = .ok f ↔ s.value what op = .ok (.function f) ∧ s.program.hasFunction f := by
  rw [function, bind_eq_ok]
  constructor
  · rintro ⟨v, hv, hf⟩
    cases v with
    | function h =>
      simp only at hf
      split at hf
      · next hh =>
        cases hf
        exact ⟨hv, hh⟩
      · cases hf
    | _ => cases hf
  · rintro ⟨hv, hh⟩
    refine ⟨_, hv, ?_⟩
    simp only [hh, if_true]
    rfl

theorem operands_eq {ops : List Operand} (hn : s.program.node? n = some (.tuple ops)) :
    s.operands n = .ok ops := by
  simp [operands, node, hn, bind, Except.bind, pure, Except.pure]

theorem toInt_word (w : UInt32) : (Int64.ofNat w.toNat).toInt = w.toNat := by
  have := w.toNat_lt
  rw [Int64.toInt_ofNat_of_lt]
  omega

theorem word?_word (w : UInt32) : word? (Int64.ofNat w.toNat) = some w := by
  unfold word?
  rw [toInt_word, if_pos ⟨by omega, by simpa using w.toNat_lt⟩]
  simp

end Source

/-! ## Lawful cells and layouts -/

/-- What is put is kept, and what is read can be put. `shape` says which values can be put, `refs`
which entities a value refers to. -/
structure Cell.Lawful {α : Type} (c : Cell α) (shape : α → Prop) (refs : α → List Entity) : Prop where
  growing_parts   : ∀ x, Build.Growing (c.put x)
  growing_operand : ∀ x p, Build.Growing (c.put x p).1
  keeps : ∀ x p q, shape x → (c.put x p).2.Grows q →
    ((c.put x p).1 q).2.Keeps (refs x) (fun s => c.get s ((c.put x p).1 q).1) x
  reads : ∀ s op x, c.get s op = .ok x → shape x ∧ ∀ e ∈ refs x, s.program.has e

/-- The same for the layout of a record, which is written as a tuple with one operand for each slot,
built when the parts of the slot are there. -/
structure Layout.Lawful {ρ : Type} (l : Layout ρ) (shape : ρ → Prop) (refs : ρ → List Entity) :
    Prop where
  growing : ∀ x, Build.Growing (l.write x)
  operands : ∀ x p, ∃ ops, (l.write x p).2.node? (l.write x p).1 = some (.tuple ops) ∧
    ops.length = l.slots.length ∧
    ∀ (i : Nat) (f : Slot ρ) op, l.slots[i]? = some f → ops[i]? = some op →
      ∃ p₀ q₀ : Program, (f.put x p₀).2.Grows q₀ ∧ op = ((f.put x p₀).1 q₀).1 ∧
        ((f.put x p₀).1 q₀).2.Extends (l.write x p).2
  keeps : ∀ x p, shape x →
    (l.write x p).2.Keeps (refs x) (fun s => l.read s (l.write x p).1) x
  reads : ∀ s h x, l.read s h = .ok x → shape x ∧ ∀ e ∈ refs x, s.program.has e

/-- A value of any shape. -/
def anyShape {α : Type} (_ : α) : Prop := True

@[simp]
theorem anyShape_self {α : Type} (x : α) : anyShape x := trivial

/-- A value that refers to no entity. -/
def noRefs {α : Type} (_ : α) : List Entity := []

@[simp]
theorem noRefs_eq_nil {α : Type} (x : α) : noRefs x = [] := rfl

namespace Cell

variable {α : Type}

theorem lawful_plain {make : α → Build Operand} {get : Source → Operand → Except Fault α}
    {shape : α → Prop} {refs : α → List Entity} (hg : ∀ x, Build.Growing (make x))
    (hk : ∀ x p, shape x → (make x p).2.Keeps (refs x) (fun s => get s (make x p).1) x)
    (hr : ∀ s op x, get s op = .ok x → shape x ∧ ∀ e ∈ refs x, s.program.has e) :
    (plain make get).Lawful shape refs where
  growing_parts _ := .pure _
  growing_operand x _ := hg x
  keeps x _ q hx _ := hk x q hx
  reads := hr

/-- An operand that refers to a node can be read again once it is written, and what is read is in the
program. -/
structure Inverse (put : α → Build (Handle .node)) (get : Source → Operand → Except Fault α)
    (refs : α → List Entity) : Prop where
  growing : ∀ x, Build.Growing (some <$> put x)
  keeps   : ∀ x p, ((some <$> put x) p).2.Keeps (refs x) (fun s => get s ((some <$> put x) p).1) x
  reads   : ∀ s op x, get s op = .ok x → ∀ e ∈ refs x, s.program.has e

/-- Whatever is read from an operand that may be null, the reader gives. -/
theorem optional_eq_some {get : Operand → Except Fault α} {op : Operand} {a : α}
    (hr : Source.optional get op = .ok (some a)) : get op = .ok a := by
  cases op with
  | none => cases hr
  | some n =>
    obtain ⟨b, hb, heq⟩ := map_eq_ok.1 hr
    cases heq
    exact hb

namespace Inverse

variable {put : α → Build (Handle .node)} {get : Source → Operand → Except Fault α} {refs : α → List Entity}

theorem lawful (h : Inverse put get refs) : (plain (fun x => some <$> put x) get).Lawful anyShape refs :=
  lawful_plain h.growing (fun x p _ => h.keeps x p) fun s op x hx => ⟨trivial, h.reads s op x hx⟩

/-- What may be missing is written as null. -/
theorem lawful_optional (h : Inverse put get refs) {make : Option α → Build Operand}
    {refs' : Option α → List Entity} (hnone : make none = pure none)
    (hsome : ∀ x, make (some x) = some <$> put x) (hrefs : refs' none = []) (hrefs' : ∀ x, refs' (some x) = refs x) :
    (plain make fun s => Source.optional (get s)).Lawful anyShape refs' := by
  refine lawful_plain ?_ ?_ ?_
  · rintro (_ | x)
    · rw [hnone]
      exact .pure _
    · rw [hsome]
      exact h.growing x
  · rintro (_ | x) p - s hs hm he
    · rw [hnone]
      rfl
    · rw [hsome] at hs ⊢
      rw [hrefs'] at he
      exact map_eq_ok.2 ⟨x, h.keeps x p s hs hm he, rfl⟩
  · rintro s op (_ | x) hx
    · exact ⟨trivial, by simp [hrefs]⟩
    · exact ⟨trivial, hrefs' x ▸ h.reads s op x (optional_eq_some hx)⟩

end Inverse

/-! ### Operands that refer to a constant -/

theorem growing_constantOperand {c : Build (Handle .constant)} (hc : Build.Growing c) :
    Build.Growing (constantOperand c) :=
  .bind hc fun _ => .bind (Build.growing_node _) fun _ => .pure _

/-- An operand made of a constant reads as that constant. -/
theorem constant_constantOperand {c : Build (Handle .constant)} {p : Program} {a : Constant}
    (hc : (c p).2.constant? (c p).1 = some a) {s : Source}
    (hs : (constantOperand c p).2.Extends s.program) (what : String) :
    s.constant what (constantOperand c p).1 = .ok a := by
  have hn := Build.node?_node (.value (.constant (c p).1)) (c p).2
  have hg := Build.growing_node (.value (.constant (c p).1)) (c p).2
  exact Source.constant_eq (hs.node? hn) (hs.constant? (hg.constant? hc))

theorem growing_wordOperand (n : UInt32) : Build.Growing (wordOperand n) :=
  growing_constantOperand (Build.growing_int _ _)

theorem int_constantOperand (bits : UInt32) (n : Int64) (p : Program) {s : Source}
    (hs : (constantOperand (Build.int bits n) p).2.Extends s.program) (what : String) :
    s.int what (constantOperand (Build.int bits n) p).1 = .ok n := by
  obtain ⟨t, ht⟩ := Build.constant?_int bits n p
  have := constant_constantOperand ht hs what
  simp [Source.int, this, Constant.int?, bind, Except.bind, pure, Except.pure]

theorem word_wordOperand (n : UInt32) (p : Program) {s : Source}
    (hs : (wordOperand n p).2.Extends s.program) (what : String) :
    s.word what (wordOperand n p).1 = .ok n := by
  obtain ⟨t, ht⟩ := Build.constant?_int 32 (Int64.ofNat n.toNat) p
  have := constant_constantOperand ht hs what
  simp only [wordOperand, Source.word, this, bind, Except.bind, Constant.int?, Option.bind_some,
    Source.word?_word]
  rfl

theorem lawful_word (what : String) : (word what).Lawful anyShape noRefs :=
  lawful_plain growing_wordOperand (fun n p _ _ hs _ _ => word_wordOperand n p hs what)
    fun _ _ _ _ => ⟨trivial, by simp⟩

theorem lawful_optionalWord (what : String) : (optionalWord what).Lawful anyShape noRefs := by
  refine lawful_plain ?_ ?_ fun _ _ _ _ => ⟨trivial, by simp⟩
  · rintro (_ | n)
    · exact growing_constantOperand (Build.growing_int _ _)
    · exact growing_wordOperand n
  · rintro (_ | n) p _ s hs _ _
    · simp only [Source.optionalWord, int_constantOperand 32 (-1) p hs, bind, Except.bind]
      rfl
    · have hne : Int64.ofNat n.toNat ≠ -1 := by
        intro h
        have := congrArg Int64.toInt h
        rw [Source.toInt_word] at this
        exact absurd this (by simp)
      have hn := int_constantOperand 32 (Int64.ofNat n.toNat) p hs what
      simp only [Source.optionalWord, bind, Except.bind]
      rw [show wordOperand n p = constantOperand (Build.int 32 (Int64.ofNat n.toNat)) p from rfl, hn]
      simp only [hne, if_false, Source.word?_word]
      rfl

theorem lawful_bool (what : String) : (bool what).Lawful anyShape noRefs := by
  refine lawful_plain (fun b => growing_constantOperand (Build.growing_int _ _)) ?_
    fun _ _ _ _ => ⟨trivial, by simp⟩
  intro b p _ s hs _ _
  have := int_constantOperand 1 (if b then 1 else 0) p hs what
  simp only [Source.bool, Build.bool, this, bind, Except.bind]
  cases b <;> rfl

theorem lawful_single (what : String) : (single what).Lawful anyShape noRefs := by
  refine lawful_plain (fun _ => growing_constantOperand (Build.growing_single _)) ?_
    fun _ _ _ _ => ⟨trivial, by simp⟩
  intro x p _ s hs _ _
  obtain ⟨t, ht⟩ := Build.constant?_single x p
  have := constant_constantOperand ht hs what
  simp only [Source.single, this, bind, Except.bind, Constant.float?, Single.narrow_widen]
  rfl

theorem member_wordOperand [Numbered α] (a : α) (p : Program) {s : Source}
    (hs : (wordOperand (Numbered.code a) p).2.Extends s.program) (what : String) :
    s.member what (wordOperand (Numbered.code a) p).1 = .ok a := by
  simp only [Source.member, word_wordOperand _ p hs, bind, Except.bind, Numbered.ofCode?_code]
  rfl

theorem lawful_member [Numbered α] (what : String) :
    (member what : Cell α).Lawful anyShape noRefs :=
  lawful_plain (fun _ => growing_wordOperand _) (fun a p _ _ hs _ _ => member_wordOperand a p hs what)
    fun _ _ _ _ => ⟨trivial, by simp⟩

/-! ### Strings and entities -/

theorem growing_string (text : String) : Build.Growing (some <$> Build.string text) :=
  .map _ (Build.growing_node _)

theorem string_operand (text : String) (p : Program) {s : Source}
    (hs : (Build.string text p).2.Extends s.program) (what : String) :
    s.string what (some (Build.string text p).1) = .ok text := by
  have hn := hs.node? (Build.node?_node (.string text) p)
  simp only [Build.string] at *
  simp [Source.string, Source.required, Source.node, hn, bind, Except.bind, pure, Except.pure]

theorem inverse_string (what : String) : Inverse Build.string (·.string what) noRefs where
  growing := growing_string
  keeps text p _ hs _ _ := string_operand text p hs what
  reads := by simp

theorem lawful_string (what : String) : (string what).Lawful anyShape noRefs := (inverse_string what).lawful

theorem lawful_optionalString (what : String) : (optionalString what).Lawful anyShape noRefs :=
  (inverse_string what).lawful_optional rfl (fun _ => rfl) rfl fun _ => rfl

theorem growing_valueOperand (v : Value) : Build.Growing (valueOperand v) :=
  .map _ (Build.growing_node _)

theorem value_valueOperand (v : Value) (p : Program) {s : Source}
    (hs : (valueOperand v p).2.Extends s.program) (what : String) :
    s.value what (valueOperand v p).1 = .ok v :=
  Source.value_eq (hs.node? (Build.node?_node (.value v) p))

theorem global_valueOperand (h : Handle .global) (p : Program) {s : Source}
    (hs : (valueOperand (.global h) p).2.Extends s.program) (hh : s.program.hasGlobal h)
    (what : String) : s.global what (valueOperand (.global h) p).1 = .ok h :=
  Source.global_eq_ok.2 ⟨value_valueOperand _ p hs what, hh⟩

theorem function_valueOperand (h : Handle .function) (p : Program) {s : Source}
    (hs : (valueOperand (.function h) p).2.Extends s.program) (hh : s.program.hasFunction h)
    (what : String) : s.function what (valueOperand (.function h) p).1 = .ok h :=
  Source.function_eq_ok.2 ⟨value_valueOperand _ p hs what, hh⟩

theorem inverse_global (what : String) :
    Inverse (fun h => Build.value (.global h)) (·.global what) fun h => [.global h] where
  growing h := growing_valueOperand (.global h)
  keeps h p _ hs _ he := global_valueOperand h p hs (he _ List.mem_cons_self) what
  reads _ _ _ hr _ he := List.mem_singleton.1 he ▸ (Source.global_eq_ok.1 hr).2

theorem lawful_global (what : String) : (global what).Lawful anyShape fun h => [.global h] :=
  (inverse_global what).lawful

theorem lawful_optionalGlobal (what : String) :
    (optionalGlobal what).Lawful anyShape fun h => h.toList.map .global :=
  (inverse_global what).lawful_optional rfl (fun _ => rfl) rfl fun _ => rfl

theorem inverse_function (what : String) :
    Inverse (fun h => Build.value (.function h)) (·.function what) fun h => [.function h] where
  growing h := growing_valueOperand (.function h)
  keeps h p _ hs _ he := function_valueOperand h p hs (he _ List.mem_cons_self) what
  reads _ _ _ hr _ he := List.mem_singleton.1 he ▸ (Source.function_eq_ok.1 hr).2

theorem lawful_function (what : String) : (function what).Lawful anyShape fun h => [.function h] :=
  (inverse_function what).lawful

theorem lawful_optionalFunction (what : String) :
    (optionalFunction what).Lawful anyShape fun h => h.toList.map .function :=
  (inverse_function what).lawful_optional rfl (fun _ => rfl) rfl fun _ => rfl

/-! ### Constants that are parts -/

/-- A cell whose part is a constant, read back by looking at the constant. -/
theorem lawful_constantPart (what : String) {make : α → Constant}
    {get : Source → Operand → Except Fault α}
    (hget : ∀ s op x, s.constant what op = .ok (make x) → get s op = .ok x) :
    (Cell.mk (fun x => do return valueOperand (.constant (← Build.constant (make x)))) get).Lawful
      anyShape noRefs where
  growing_parts x := .bind (Build.growing_constant (make x)) fun _ => .pure _
  growing_operand _ _ := growing_valueOperand _
  keeps x p q _ hq s hs _ _ := by
    have hc := hq.constant? (Build.constant?_constant (make x) p)
    have hn := Build.node?_node (.value (.constant (Build.constant (make x) p).1)) q
    have hg := Build.growing_node (.value (.constant (Build.constant (make x) p).1)) q
    exact hget s _ x (Source.constant_eq (hs.node? hn) (hs.constant? (hg.constant? hc)))
  reads _ _ _ _ := ⟨trivial, by simp⟩

theorem lawful_bytes (what : String) : (bytes what).Lawful anyShape noRefs := by
  refine lawful_constantPart what ?_
  intro s op x hc
  simp only [Source.bytes, hc, bind, Except.bind]
  rfl

theorem lawful_placeholder (what : String) : (placeholder what).Lawful anyShape noRefs := by
  refine lawful_constantPart what ?_
  intro s op x hc
  simp only [Source.placeholder, hc, bind, Except.bind]
  rfl

end Cell

end ShaderModule
