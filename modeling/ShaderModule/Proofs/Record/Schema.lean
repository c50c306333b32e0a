import ShaderModule.Proofs.Record.Cell
import ShaderModule.Record.Load

/-!
# The schema of metadata

Which records stand where in the reserved entries, and how many operands a record has at a minor
version. Along the schema the metadata of two programs is compared: the same operands may be kept in
other nodes, and in records that are longer or shorter.
-/

namespace ShaderModule

/-! ## Kinds of records -/

/-- The kinds of records that have a fixed number of operands. -/
inductive RecordKind where
  | version
  | profile
  | entryPoint
  | signatures
  | element
  | registry
  | srv
  | uav
  | cbuffer
  | sampler
  | struct
  | field
  | function
  | param
  | resourceType
  | props (stage : Stage)
  | options
  | rootSignature
deriving DecidableEq, Repr

namespace RecordKind

/-- The number of operands at minor version 0. -/
def base : RecordKind → Nat
  | .version => 2
  | .profile => 3
  | .entryPoint => 3
  | .signatures => 3
  | .element => 11
  | .registry => 4
  | .srv => 10
  | .uav => 11
  | .cbuffer => 7
  | .sampler => 7
  | .struct => 3
  | .field => 6
  | .function => 3
  | .param => 4
  | .resourceType => 3
  | .props .pixel => 3
  | .props .vertex => 8
  | .props .geometry => 9
  | .props .hull => 8
  | .props .domain => 4
  | .props .compute => 5
  | .options => 1
  | .rootSignature => 1

/-- Whether minor version 1 added an operand. -/
def grew : RecordKind → Bool
  | .uav | .param | .props .hull => true
  | _ => false

/-- The number of operands at a minor version. -/
def arity (k : RecordKind) (minor : UInt32) : Nat :=
  if k.grew ∧ 1 ≤ minor then k.base + 1 else k.base

/-- Whether a record may have that many operands. Only in metadata of a newer version than the current
one there may be more of them than the arity. -/
def Accepts (k : RecordKind) (minor : UInt32) (n : Nat) : Prop :=
  k.arity minor ≤ n ∧ (minor ≤ Version.current.minor → n = k.arity minor)

/-- A record without the operand that minor version 1 added. -/
def Cut (k : RecordKind) (before after : Nat) : Prop :=
  after = if k.grew then before - 1 else before

instance (k : RecordKind) (minor : UInt32) (n : Nat) : Decidable (k.Accepts minor n) :=
  inferInstanceAs (Decidable (_ ∧ _))

instance (k : RecordKind) (m n : Nat) : Decidable (k.Cut m n) := inferInstanceAs (Decidable (_ = _))

theorem base_le_arity (k : RecordKind) (minor : UInt32) : k.base ≤ k.arity minor := by
  unfold arity
  split <;> omega

/-- There has been no change since the current version. -/
theorem arity_of_current_le (k : RecordKind) {minor : UInt32} (h : Version.current.minor ≤ minor) :
    k.arity minor = k.arity Version.current.minor := by
  have h : 1 ≤ minor := h
  simp [arity, h, Version.current]

theorem arity_le_current (k : RecordKind) (minor : UInt32) :
    k.arity minor ≤ k.arity Version.current.minor := by
  unfold arity
  split
  · next h => simp [h.1, Version.current]
  · exact k.base_le_arity _

/-- A record is accepted at the current version if it has just its operands. -/
theorem accepts_current {k : RecordKind} {n : Nat} :
    k.Accepts Version.current.minor n ↔ n = k.arity Version.current.minor :=
  ⟨fun h => h.2 (UInt32.le_refl _), fun h => ⟨Nat.le_of_eq h.symm, fun _ => h⟩⟩

theorem not_accepts {k : RecordKind} {minor : UInt32} {n : Nat} :
    ¬ k.Accepts minor n ↔ n < k.arity minor ∨ k.arity minor < n ∧ minor ≤ Version.current.minor := by
  unfold Accepts
  by_cases h : minor ≤ Version.current.minor
  · simp only [h, and_true, forall_const]
    omega
  · simp only [h, and_false, false_implies, and_true, or_false]
    omega

/-- What is cut is what minor version 0 lacks. -/
theorem Cut.accepts {k : RecordKind} {n : Nat} (h : k.Cut (k.arity Version.current.minor) n) :
    k.Accepts 0 n := by
  have hn : n = k.arity 0 := by
    rw [Cut] at h
    rw [h]
    cases hg : k.grew <;> simp [arity, hg, Version.current]
  exact ⟨Nat.le_of_eq hn.symm, fun _ => hn⟩

end RecordKind

/-! ## Forms -/

/-- What an operand leads to. -/
inductive Form where
  /-- A string, a value or nothing. -/
  | scalar
  /-- A tuple of any length, or nothing. -/
  | list (entry : Form)
  | record (kind : RecordKind) (field : Nat → Form)
  /-- A record whose layout is decided by the stage in it. -/
  | staged (form : Stage → Form)

namespace Form

/-- A record of which no operand leads further. -/
def flat (kind : RecordKind) : Form := .record kind fun _ => .scalar

def element : Form :=
  .record .element fun
    | 4 => .list .scalar
    | _ => .scalar

def signatures : Form := .record .signatures fun _ => .list element

def entryPoint : Form :=
  .record .entryPoint fun
    | 2 => signatures
    | _ => .scalar

def registry : Form :=
  .record .registry fun
    | 0 => .list (flat .srv)
    | 1 => .list (flat .uav)
    | 2 => .list (flat .cbuffer)
    | _ => .list (flat .sampler)

def struct : Form :=
  .record .struct fun
    | 2 => .list (flat .field)
    | _ => .scalar

def function : Form :=
  .record .function fun
    | 1 => flat .param
    | 2 => .list (flat .param)
    | _ => .scalar

end Form

/-- What the operands in the entry of a group lead to, by position. -/
def Group.form : Group → Nat → Form
  | .version, _ => .flat .version
  | .profile, _ => .flat .profile
  | .entryPoints, _ => .entryPoint
  | .resources, _ => .registry
  | .annotations, 0 => .list .struct
  | .annotations, _ => .list .function
  | .functionProps, _ => .staged fun stage => .flat (.props stage)
  | .options, _ => .flat .options
  | .resourceTypes, _ => .list (.flat .resourceType)
  | .rootSignature, _ => .flat .rootSignature
  | .used, _ => .scalar

/-! ## What an operand holds -/

/-- What an operand holds that is no tuple. -/
inductive Content where
  | null
  | text (text : String)
  | constant (c : Constant)
  | value (v : Value)
deriving DecidableEq, Repr

namespace Program

variable (p : Program)

/-- What a node holds that is no tuple. -/
def held : Node → Option Content
  | .string text => some (.text text)
  | .value (.constant c) => (p.constant? c).map .constant
  | .value v => some (.value v)
  | .tuple _ => none

def content? : Operand → Option Content
  | none => some .null
  | some h => (p.node? h).bind p.held

def tuple? : Operand → Option (List Operand)
  | none => none
  | some h =>
    match p.node? h with
    | some (.tuple ops) => some ops
    | _ => none

/-- The word that an operand holds. -/
def word? (op : Operand) : Option UInt32 :=
  match p.content? op with
  | some (.constant c) => c.int?.bind Source.word?
  | _ => none

/-- The stage in the second operand of a record. -/
def stage? (op : Operand) : Option Stage :=
  match p.tuple? op with
  | some (_ :: stage :: _) => (p.word? stage).bind Numbered.ofCode?
  | _ => none

/-- The entry of the version holds a single tuple, which begins with the words of the version. -/
def Declares (v : Version) (extra : List Operand) : Prop :=
  ∃ h major minor, p.named? Group.version.name = some [h] ∧
    p.tuple? (some h) = some (major :: minor :: extra) ∧
    p.word? major = some v.major ∧ p.word? minor = some v.minor

variable {p} {op : Operand} {n : Node}

theorem held_ne_null : p.held n ≠ some .null := by
  cases n with
  | string text => simp [held]
  | value v => cases v <;> simp [held]
  | tuple ops => simp [held]

theorem held_eq_text {text : String} : p.held n = some (.text text) ↔ n = .string text := by
  cases n with
  | string text => simp [held]
  | value v => cases v <;> simp [held]
  | tuple ops => simp [held]

theorem held_eq_constant {c : Constant} :
    p.held n = some (.constant c) ↔ ∃ k, n = .value (.constant k) ∧ p.constant? k = some c := by
  cases n with
  | string text => simp [held]
  | value v => cases v <;> simp [held]
  | tuple ops => simp [held]

theorem held_eq_value {v : Value} (hv : ∀ c, v ≠ .constant c) :
    p.held n = some (.value v) ↔ n = .value v := by
  cases n with
  | string text => simp [held]
  | value w => cases w <;> simp [held, (hv _).symm]
  | tuple ops => simp [held]

theorem content?_eq_null : p.content? op = some .null ↔ op = none := by
  cases op with
  | none => simp [content?]
  | some h => cases hn : p.node? h <;> simp [content?, hn, held_ne_null]

/-- A record that names its stage has the two operands of its header. -/
theorem length_of_stage? {stage : Stage} {xs : List Operand} (hstage : p.stage? op = some stage)
    (hx : p.tuple? op = some xs) : 2 ≤ xs.length := by
  rw [stage?, hx] at hstage
  rcases xs with - | ⟨_, - | ⟨_, rest⟩⟩
  · cases hstage
  · cases hstage
  · exact Nat.le_add_left 2 rest.length

end Program

/-! ## The same metadata with other records -/

namespace Form

variable (p q : Program) (fits : RecordKind → Nat → Nat → Prop)

/-- Two operands hold the same along a form, up to the numbers of operands of the records, which `fits`
relates. -/
def Recast : Form → Operand → Operand → Prop
  | .scalar, a, b => p.content? a = q.content? b
  | .list entry, a, b => a = none ∧ b = none ∨
    ∃ xs ys, p.tuple? a = some xs ∧ q.tuple? b = some ys ∧ List.Forall₂ (Recast entry) xs ys
  | .record kind field, a, b =>
    ∃ xs ys, p.tuple? a = some xs ∧ q.tuple? b = some ys ∧ fits kind xs.length ys.length ∧
      ∀ i x y, xs[i]? = some x → ys[i]? = some y → Recast (field i) x y
  | .staged form, a, b =>
    ∃ stage, p.stage? a = some stage ∧ q.stage? b = some stage ∧ Recast (form stage) a b

variable {p q fits}

/-- What is there in one program is there in the other. -/
theorem Recast.exists_some {form : Form} {h : Handle .node} {b : Operand}
    (hr : form.Recast p q fits (some h) b) : ∃ k, b = some k := by
  cases b with
  | some k => exact ⟨k, rfl⟩
  | none =>
    cases form with
    | scalar => cases Program.content?_eq_null.1 hr
    | list entry =>
      obtain ⟨hnone, -⟩ | ⟨xs, ys, -, hys, -⟩ := hr
      · cases hnone
      · cases hys
    | record kind field =>
      obtain ⟨xs, ys, -, hys, -⟩ := hr
      cases hys
    | staged form =>
      obtain ⟨stage, -, hstage, -⟩ := hr
      cases hstage

end Form

/-- A program whose metadata is that of another one with other numbers of operands in its records. The
version may be another one. -/
structure Program.Recast (p q : Program) (fits : RecordKind → Nat → Nat → Prop) : Prop where
  globals   : q.globals = p.globals
  functions : q.functions = p.functions
  entries   : ∀ g ≠ Group.version, p.named? g.name = none ∧ q.named? g.name = none ∨
    ∃ hs ks, p.named? g.name = some hs ∧ q.named? g.name = some ks ∧ ks.length = hs.length ∧
      ∀ i h k, hs[i]? = some h → ks[i]? = some k → (g.form i).Recast p q fits (some h) (some k)

/-! ### Deciding -/

/-- What is to hold of two optional things is decided by looking for them. -/
def decidableBoth {α β : Type} (o : Option α) (o' : Option β) (P : α → β → Prop)
    [∀ x y, Decidable (P x y)] : Decidable (∃ x y, o = some x ∧ o' = some y ∧ P x y) :=
  match o, o' with
  | some x, some y => decidable_of_iff (P x y) (by simp)
  | none, _ => isFalse (by simp)
  | some _, none => isFalse (by simp)

/-- What is to hold at all positions of two lists is decided for one position after another. -/
def decidablePositions {α β : Type} (xs : List α) (ys : List β) (P : Nat → α → β → Prop)
    [∀ i x y, Decidable (P i x y)] :
    Decidable (∀ i x y, xs[i]? = some x → ys[i]? = some y → P i x y) :=
  decidable_of_iff (∀ e ∈ (xs.zip ys).zipIdx, P e.2 e.1.1 e.1.2) <| by
    simp only [Prod.forall, List.mk_mem_zipIdx_iff_getElem?, List.getElem?_zip_eq_some]
    exact ⟨fun h i x y hx hy => h x y i ⟨hx, hy⟩, fun h x y i hxy => h i x y hxy.1 hxy.2⟩

section Decide

variable {p q : Program} {fits : RecordKind → Nat → Nat → Prop} [∀ k m n, Decidable (fits k m n)]

instance Form.decidableRecast : ∀ form a b, Decidable (Form.Recast p q fits form a b)
  | .scalar, a, b => inferInstanceAs (Decidable (p.content? a = q.content? b))
  | .list entry, a, b =>
    have := decidableRecast entry
    have := decidableBoth (p.tuple? a) (q.tuple? b) (List.Forall₂ (Recast p q fits entry))
    inferInstanceAs (Decidable (_ ∨ _))
  | .record kind field, a, b =>
    have := fun i => decidableRecast (field i)
    have := fun xs ys => decidablePositions xs ys fun i => Recast p q fits (field i)
    decidableBoth (p.tuple? a) (q.tuple? b) fun xs ys => fits kind xs.length ys.length ∧
      ∀ i x y, xs[i]? = some x → ys[i]? = some y → Recast p q fits (field i) x y
  | .staged form, a, b =>
    have := fun stage => decidableRecast (form stage)
    have := decidableBoth (p.stage? a) (q.stage? b) fun stage stage' =>
      stage = stage' ∧ Recast p q fits (form stage) a b
    decidable_of_iff (∃ stage stage', p.stage? a = some stage ∧ q.stage? b = some stage' ∧
      stage = stage' ∧ Recast p q fits (form stage) a b) (by simp [Recast])

instance Program.decidableRecast : Decidable (p.Recast q fits) :=
  have := fun (g : Group) hs ks => decidablePositions hs ks fun i (h k : Handle .node) =>
    (g.form i).Recast p q fits (some h) (some k)
  have := fun (g : Group) => decidableBoth (p.named? g.name) (q.named? g.name) fun hs ks =>
    ks.length = hs.length ∧ ∀ i (h k : Handle .node), hs[i]? = some h → ks[i]? = some k →
      (g.form i).Recast p q fits (some h) (some k)
  decidable_of_iff (q.globals = p.globals ∧ q.functions = p.functions ∧ ∀ g ∈ Group.all, g ≠ .version →
    (p.named? g.name = none ∧ q.named? g.name = none ∨
      ∃ hs ks, p.named? g.name = some hs ∧ q.named? g.name = some ks ∧ ks.length = hs.length ∧
        ∀ i (h k : Handle .node), hs[i]? = some h → ks[i]? = some k →
          (g.form i).Recast p q fits (some h) (some k)))
    ⟨fun h => ⟨h.1, h.2.1, fun g => h.2.2 g (Group.mem_all g)⟩,
      fun h => ⟨h.globals, h.functions, fun g _ => h.entries g⟩⟩

end Decide

/-! ## The records that are come to -/

/-- A record of that kind, with those operands, is come to along a form. -/
inductive Form.Visits (p : Program) (minor : UInt32) :
    Form → Operand → RecordKind → List Operand → Prop where
  | here {kind field op xs} (hop : p.tuple? op = some xs) : Visits p minor (.record kind field) op kind xs
  | field {kind field op xs i x k ys} (hop : p.tuple? op = some xs) (hi : i < kind.arity minor)
      (hx : xs[i]? = some x) (h : Visits p minor (field i) x k ys) :
      Visits p minor (.record kind field) op k ys
  | entry {form op xs x k ys} (hop : p.tuple? op = some xs) (hx : x ∈ xs)
      (h : Visits p minor form x k ys) : Visits p minor (.list form) op k ys
  | staged {form op stage k ys} (hop : p.stage? op = some stage)
      (h : Visits p minor (form stage) op k ys) : Visits p minor (.staged form) op k ys

/-- A record is come to from the entry of a group. -/
def Program.Visits (p : Program) (minor : UInt32) (k : RecordKind) (xs : List Operand) : Prop :=
  ∃ (g : Group) (hs : List (Handle .node)) (i : Nat) (h : Handle .node),
    p.named? g.name = some hs ∧ hs[i]? = some h ∧ (g.form i).Visits p minor (some h) k xs

namespace Form

/-- All records that are come to along a form have as many operands as they may have. -/
def Sound (s : Source) (form : Form) (op : Operand) : Prop :=
  ∀ k xs, form.Visits s.program s.minor op k xs → k.Accepts s.minor xs.length

variable {s : Source} {op : Operand}

theorem sound_scalar : Form.scalar.Sound s op := by
  intro k xs h
  cases h

theorem sound_list {form : Form}
    (h : ∀ xs, s.program.tuple? op = some xs → ∀ x ∈ xs, form.Sound s x) : (Form.list form).Sound s op := by
  intro k ys hv
  cases hv with
  | entry hop hx hv => exact h _ hop _ hx k ys hv

theorem sound_record {kind : RecordKind} {field : Nat → Form} {xs : List Operand}
    (hop : s.program.tuple? op = some xs) (hlen : kind.Accepts s.minor xs.length)
    (h : ∀ i x, i < kind.arity s.minor → xs[i]? = some x → (field i).Sound s x) :
    (Form.record kind field).Sound s op := by
  intro k ys hv
  cases hv with
  | here hop' =>
    rw [hop] at hop'
    cases hop'
    exact hlen
  | field hop' hi hx hv =>
    rw [hop] at hop'
    cases hop'
    exact h _ _ hi hx k ys hv

theorem sound_staged {form : Stage → Form} {stage : Stage} (hop : s.program.stage? op = some stage)
    (h : (form stage).Sound s op) : (Form.staged form).Sound s op := by
  intro k ys hv
  cases hv with
  | staged hop' hv =>
    rw [hop] at hop'
    cases hop'
    exact h k ys hv

end Form

end ShaderModule
