import ShaderModule.Proofs.Record.FollowLayout
import ShaderModule.Proofs.Record.Reload

/-!
# What each version knows

Minor version 1 added one field to read-write views, to hull shaders and to parameters. Tables as of
minor version 0 have the initial value there, and everything else as it is. Every reader of the schema
follows the form of its records in this sense.
-/

namespace ShaderModule

/-! ## Tables as of a minor version -/

def View.asOf (minor : UInt32) (v : View) : View :=
  { v with rasterizerOrdered := if minor = 0 then false else v.rasterizerOrdered }

def HullProps.asOf (minor : UInt32) (x : HullProps) : HullProps :=
  { x with maxTessFactor := if minor = 0 then defaultMaxTessFactor else x.maxTessFactor }

def ParamInfo.asOf (minor : UInt32) (x : ParamInfo) : ParamInfo :=
  { x with orientation := if minor = 0 then .undefined else x.orientation }

def Registry.asOf (minor : UInt32) (r : Registry) : Registry :=
  { r with uavs := r.uavs.map fun x => { x with payload := x.payload.asOf minor } }

def StageProps.asOf (minor : UInt32) : StageProps → StageProps
  | .hull props => .hull (props.asOf minor)
  | x => x

def FunctionInfo.asOf (minor : UInt32) (x : FunctionInfo) : FunctionInfo :=
  ⟨x.result.asOf minor, x.params.map (ParamInfo.asOf minor)⟩

def TypeSystem.asOf (minor : UInt32) (t : TypeSystem) : TypeSystem :=
  { t with functions := t.functions.mapValues (FunctionInfo.asOf minor) }

/-- The tables as metadata of a minor version keeps them. -/
def Tables.asOf (minor : UInt32) (t : Tables) : Tables :=
  { t with
    resources := t.resources.asOf minor
    props     := t.props.mapValues (StageProps.asOf minor)
    types     := t.types.asOf minor }

/-- All is known at minor version 1 and later. -/
theorem Tables.asOf_of_ne_zero {minor : UInt32} (h : minor ≠ 0) (t : Tables) : t.asOf minor = t := by
  have hview : ∀ x : Bound View, { x with payload := x.payload.asOf minor } = x := by
    intro x
    simp [View.asOf, h]
  have hparam : ParamInfo.asOf minor = id := by
    funext x
    simp [ParamInfo.asOf, h]
  have hfunction : ∀ x : FunctionInfo, x.asOf minor = x := by
    intro x
    simp [FunctionInfo.asOf, hparam]
  have hprops : ∀ x : StageProps, x.asOf minor = x := by
    intro x
    cases x <;> simp [StageProps.asOf, HullProps.asOf, h]
  simp only [Tables.asOf, Registry.asOf, TypeSystem.asOf, Ordered.mapValues, hview, hfunction, hprops,
    List.map_id']

/-! ## Records -/

theorem Profile.follows_layout : Follows some Profile.layout.read (.flat .profile) asIs := by
  refine Layout.follows rfl ?_ (by decide) fun _ => rfl
  exact .cons (Cell.follows_stage.field fun _ _ _ => rfl) <|
    .cons ((Cell.follows_word _).field fun _ _ _ => rfl) <|
    .cons ((Cell.follows_word _).field fun _ _ _ => rfl) .nil

theorem Options.follows_layout : Follows some Options.layout.read (.flat .options) asIs := by
  refine Layout.follows rfl ?_ (by decide) fun _ => rfl
  exact .cons ((Cell.follows_word _).field fun _ _ _ => rfl) .nil

theorem follows_rootSignatureLayout : Follows some rootSignatureLayout.read (.flat .rootSignature) asIs := by
  refine Layout.follows rfl ?_ (by decide) fun _ => rfl
  exact .cons ((Cell.follows_bytes _).field fun _ _ _ => rfl) .nil

theorem FieldInfo.follows_layout : Follows some FieldInfo.layout.read (.flat .field) asIs := by
  refine Layout.follows rfl ?_ (by decide) fun _ => rfl
  exact .cons ((Cell.follows_string _).field fun _ _ _ => rfl) <|
    .cons ((Cell.follows_word _).field fun _ _ _ => rfl) <|
    .cons ((Cell.follows_member _).field fun _ _ _ => rfl) <|
    .cons ((Cell.follows_member _).field fun _ _ _ => rfl) <|
    .cons ((Cell.follows_optionalString _).field fun _ _ _ => rfl) <|
    .cons ((Cell.follows_bool _).field fun _ _ _ => rfl) .nil

theorem ParamInfo.follows_layout : Follows some ParamInfo.layout.read (.flat .param) ParamInfo.asOf := by
  refine Layout.follows rfl ?_ (by decide) ?_
  · refine .cons ((Cell.follows_member _).field fun _ _ _ => rfl) <|
      .cons ((Cell.follows_optionalString _).field fun _ _ _ => rfl) <|
      .cons ((Cell.follows_member _).field fun _ _ _ => rfl) <|
      .cons ((Cell.follows_bool _).field fun _ _ _ => rfl) <|
      .cons ((Cell.follows_member _).added ?_ ?_) .nil
    · intro minor x a hminor
      simp [asOf, asIs, hminor]
    · intro x a
      simp [asOf]
  · intro minor
    simp [asOf, layout, plain]

theorem StructInfo.follows_layout : Follows some StructInfo.layout.read .struct (asOfSecond asIs) := by
  refine Layout.follows rfl ?_ (by decide) fun _ => rfl
  exact .cons ((Cell.follows_placeholder _).field fun _ _ _ => rfl) <|
    .cons ((Cell.follows_word _).field fun _ _ _ => rfl) <|
    .cons ((Cell.follows_oldList _ fun _ => FieldInfo.follows_layout).field fun _ _ _ => rfl) .nil

theorem FunctionInfo.follows_layout :
    Follows some FunctionInfo.layout.read .function (asOfSecond asOf) := by
  refine Layout.follows rfl ?_ (by decide) ?_
  · exact .cons ((Cell.follows_function _).field fun _ _ _ => rfl) <|
      .cons ((Cell.follows_record _ ParamInfo.follows_layout).field fun _ _ _ => rfl) <|
      .cons ((Cell.follows_list _ fun _ => ParamInfo.follows_layout).field fun _ _ _ => rfl) .nil
  · intro minor
    simp [asOfSecond, layout, asOf, ParamInfo.asOf, ParamInfo.plain]

theorem ResourceTypes.follows_layout :
    Follows some ResourceTypes.layout.read (.flat .resourceType) (asOfSecond asIs) := by
  refine Layout.follows rfl ?_ (by decide) fun _ => rfl
  exact .cons ((Cell.follows_placeholder _).field fun _ _ _ => rfl) <|
    .cons ((Cell.follows_member _).field fun _ _ _ => rfl) <|
    .cons ((Cell.follows_member _).field fun _ _ _ => rfl) .nil

/-! ### Signatures -/

theorem Element.follows_layout (kind : SignatureKind) (pos : Nat) :
    Follows some (Element.layout kind pos).read .element asIs := by
  refine Layout.follows rfl ?_ ?_ fun _ => rfl
  · refine .cons ((Cell.follows_word _).field fun _ _ _ => rfl) <|
      .cons ((Cell.follows_string _).field fun _ _ _ => rfl) <|
      .cons ((Cell.follows_member _).field fun _ _ _ => rfl) <|
      .cons ((Cell.follows_member _).field fun _ _ _ => rfl) <|
      .cons ((Cell.follows_words _ _).early.field fun _ _ _ => rfl) <|
      .cons ((Cell.follows_member _).field fun _ _ _ => rfl) <|
      .cons ((Cell.follows_word _).field fun _ _ _ => rfl) <|
      .cons ((Cell.follows_word _).field fun _ _ _ => rfl) <|
      .cons ((Cell.follows_optionalWord _).field fun _ _ _ => rfl) <|
      .cons ((Cell.follows_optionalWord _).field fun _ _ _ => rfl) <|
      .cons (((Cell.follows_word _).field (by intros; rfl)).checked ?_ fun _ _ => rfl) .nil
    intro x what i
    split <;> simp
  · show ∀ i < 11, i ∈ [4, 0, 1, 2, 3, 5, 6, 7, 8, 9, 10]
    decide

theorem Signature.follows_cell (kind : SignatureKind) :
    (Signature.cell kind).Follows (.list .element) asIs :=
  (Cell.follows_oldList _ (Element.follows_layout kind)).late

theorem Signatures.follows_layout : Follows some Signatures.layout.read .signatures asIs := by
  refine Layout.follows rfl ?_ (by decide) fun _ => rfl
  exact .cons ((Signature.follows_cell _).field fun _ _ _ => rfl) <|
    .cons ((Signature.follows_cell _).field fun _ _ _ => rfl) <|
    .cons ((Signature.follows_cell _).field fun _ _ _ => rfl) .nil

theorem EntryPoint.follows_layout : Follows some EntryPoint.layout.read .entryPoint asIs := by
  refine Layout.follows rfl ?_ (by decide) fun _ => rfl
  exact .cons ((Cell.follows_optionalFunction _).field fun _ _ _ => rfl) <|
    .cons ((Cell.follows_string _).field fun _ _ _ => rfl) <|
    .cons ((Cell.follows_record _ Signatures.follows_layout).early.field fun _ _ _ => rfl) .nil

/-! ### Resources -/

namespace Bound

variable {π : Type}

/-- A record by what its class adds as of a minor version. -/
def asOf (A : UInt32 → π → π) (minor : UInt32) (x : Bound π) : Bound π :=
  { x with payload := A minor x.payload }

/-- The fields of a binding have been there all along. -/
theorem follows_slots (cls : ResourceClass) (pos : Nat) (A : UInt32 → π → π) :
    Slot.FollowAll (Bound.slots cls pos) (fun _ => .scalar) (asOf A) := by
  refine .cons ((Cell.follows_word _).field fun _ _ _ => rfl) <|
    .cons ((Cell.follows_global _).field fun _ _ _ => rfl) <|
    .cons ((Cell.follows_string _).field fun _ _ _ => rfl) <|
    .cons ((Cell.follows_word _).field fun _ _ _ => rfl) <|
    .cons ((Cell.follows_word _).field fun _ _ _ => rfl) <|
    .cons (((Cell.follows_word _).field (by intros; rfl)).checked ?_ fun _ _ => rfl) .nil
  intro x what i
  split <;> simp

/-- A class that added nothing later. -/
theorem follows_oldSlots (cls : ResourceClass) (pos : Nat) :
    Slot.FollowAll (Bound.slots (π := π) cls pos) (fun _ => .scalar) asIs :=
  follows_slots cls pos asIs

end Bound

namespace View

/-- So have those of both classes of views. -/
theorem follows_slots : Slot.FollowAll View.slots (fun _ => .scalar) (Bound.asOf asOf) :=
  .cons ((Cell.follows_member _).field fun _ _ _ => rfl) <|
    .cons ((Cell.follows_member _).field fun _ _ _ => rfl) <|
    .cons ((Cell.follows_word _).field fun _ _ _ => rfl) .nil

theorem follows_srvLayout (pos : Nat) : Follows some (srvLayout pos).read (.flat .srv) asIs := by
  refine Layout.follows rfl ?_ ?_ fun _ => rfl
  · refine .append (.append (Bound.follows_oldSlots _ _) ?_)
      (.cons ((Cell.follows_word _).field fun _ _ _ => rfl) .nil)
    exact .cons ((Cell.follows_member _).field fun _ _ _ => rfl) <|
      .cons ((Cell.follows_member _).field fun _ _ _ => rfl) <|
      .cons ((Cell.follows_word _).field fun _ _ _ => rfl) .nil
  · show ∀ i < 10, i ∈ List.range 10
    decide

/-- The flag of rasterizer order came in later. -/
theorem follows_uavLayout (pos : Nat) : Follows some (uavLayout pos).read (.flat .uav) (Bound.asOf asOf) := by
  refine Layout.follows rfl ?_ ?_ ?_
  · refine .append (.append (Bound.follows_slots _ _ _) follows_slots)
      (.cons ((Cell.follows_bool _).field fun _ _ _ => rfl) <|
        .cons ((Cell.follows_bool _).field fun _ _ _ => rfl) <|
        .cons ((Cell.follows_bool _).added ?_ ?_) .nil)
    · intro minor x a hminor
      simp [Bound.asOf, asOf, asIs, hminor]
    · intro x a
      simp [Bound.asOf, asOf]
  · show ∀ i < 12, i ∈ [0, 1, 2, 3, 4, 5, 11, 6, 7, 8, 9, 10]
    decide
  · intro minor
    simp [Bound.asOf, asOf, uavLayout, Bound.blank, View.blank]

end View

theorem ConstantBuffer.follows_layout (pos : Nat) :
    Follows some (layout pos).read (.flat .cbuffer) asIs := by
  refine Layout.follows rfl ?_ ?_ fun _ => rfl
  · exact .append (Bound.follows_oldSlots _ _) (.cons ((Cell.follows_word _).field fun _ _ _ => rfl) .nil)
  · show ∀ i < 7, i ∈ List.range 7
    decide

theorem Sampler.follows_layout (pos : Nat) :
    Follows some (layout pos).read (.flat .sampler) asIs := by
  refine Layout.follows rfl ?_ ?_ fun _ => rfl
  · exact .append (Bound.follows_oldSlots _ _) (.cons ((Cell.follows_member _).field fun _ _ _ => rfl) .nil)
  · show ∀ i < 7, i ∈ List.range 7
    decide

theorem Registry.follows_layout : Follows some Registry.layout.read .registry Registry.asOf := by
  refine Layout.follows rfl ?_ (by decide) fun _ => rfl
  exact .cons ((Cell.follows_oldList _ View.follows_srvLayout).late.field fun _ _ _ => rfl) <|
    .cons ((Cell.follows_list _ View.follows_uavLayout).late.field fun _ _ _ => rfl) <|
    .cons ((Cell.follows_oldList _ ConstantBuffer.follows_layout).late.field fun _ _ _ => rfl) <|
    .cons ((Cell.follows_oldList _ Sampler.follows_layout).late.field fun _ _ _ => rfl) .nil

/-! ### Stage properties -/

namespace StageProps

variable {σ : Type} {stage : Stage} {asOf : UInt32 → σ → σ}

/-- The stage in the header is not read with the rest. -/
theorem follows_header : Slot.FollowAll (header stage) (fun _ => .scalar) (asOfSecond asOf) := by
  refine .cons ((Cell.follows_function _).field fun _ _ _ => rfl) (.cons ?_ .nil)
  constructor
  case inBounds => exact fun _ _ x => .ok x
  case sound => exact fun _ _ _ _ _ => Form.sound_scalar
  case carries =>
    intro s s' fits a b x y _ _ _ h
    cases h
    rfl
  case forgets =>
    intro s op x y minor _ h
    cases h
    rfl

/-- The properties of a stage, from the slots that come after the header. -/
theorem follows_layout {l : Layout (Handle .function × σ)} {slots : List (Slot σ)}
    (hslots : l.slots = header stage ++ slots.map Slot.second) (hdated : l.Dated (.props stage))
    (hfields : Slot.FollowAll slots (fun _ => .scalar) asOf)
    (horder : ∀ i < RecordKind.arity (.props stage) Version.current.minor, i ∈ l.order)
    (hblank : ∀ minor, asOf minor l.blank.2 = l.blank.2) :
    Follows some l.read (.flat (.props stage)) (asOfSecond asOf) := by
  refine Layout.follows hdated ?_ horder fun minor => Prod.ext rfl (hblank minor)
  rw [hslots]
  exact .append follows_header (hfields.map fun f form hf => hf.second)

end StageProps

theorem PixelProps.follows_layout : Follows some layout.read (.flat (.props .pixel)) (asOfSecond asIs) :=
  StageProps.follows_layout rfl rfl (.cons ((Cell.follows_bool _).field fun _ _ _ => rfl) .nil)
    (by decide) fun _ => rfl

theorem DomainProps.follows_layout : Follows some layout.read (.flat (.props .domain)) (asOfSecond asIs) :=
  StageProps.follows_layout rfl rfl
    (.cons ((Cell.follows_member _).field fun _ _ _ => rfl) <|
      .cons ((Cell.follows_word _).field fun _ _ _ => rfl) .nil) (by decide) fun _ => rfl

theorem ComputeProps.follows_layout : Follows some layout.read (.flat (.props .compute)) (asOfSecond asIs) :=
  StageProps.follows_layout rfl rfl
    (.cons ((Cell.follows_word _).field fun _ _ _ => rfl) <|
      .cons ((Cell.follows_word _).field fun _ _ _ => rfl) <|
      .cons ((Cell.follows_word _).field fun _ _ _ => rfl) .nil) (by decide) fun _ => rfl

theorem GeometryProps.follows_layout : Follows some layout.read (.flat (.props .geometry)) (asOfSecond asIs) :=
  StageProps.follows_layout rfl rfl
    (.cons ((Cell.follows_member _).field fun _ _ _ => rfl) <|
      .cons ((Cell.follows_word _).field fun _ _ _ => rfl) <|
      .cons ((Cell.follows_word _).field fun _ _ _ => rfl) <|
      .cons ((Cell.follows_member _).field fun _ _ _ => rfl) <|
      .cons ((Cell.follows_member _).field fun _ _ _ => rfl) <|
      .cons ((Cell.follows_member _).field fun _ _ _ => rfl) <|
      .cons ((Cell.follows_member _).field fun _ _ _ => rfl) .nil) (by decide) fun _ => rfl

theorem VertexProps.follows_layout : Follows some layout.read (.flat (.props .vertex)) (asOfSecond asIs) := by
  refine StageProps.follows_layout rfl rfl (.of_forall ?_) (by decide) fun _ => rfl
  intro f hf
  obtain ⟨i, -, rfl⟩ := List.mem_map.1 hf
  exact (Cell.follows_optionalGlobal _).field fun _ _ _ => rfl

/-- The maximal factor of tessellation came in later. -/
theorem HullProps.follows_layout :
    Follows some layout.read (.flat (.props .hull)) (asOfSecond asOf) := by
  refine StageProps.follows_layout rfl rfl ?_ (by decide) ?_
  · refine .cons ((Cell.follows_optionalFunction _).field fun _ _ _ => rfl) <|
      .cons ((Cell.follows_member _).field fun _ _ _ => rfl) <|
      .cons ((Cell.follows_member _).field fun _ _ _ => rfl) <|
      .cons ((Cell.follows_member _).field fun _ _ _ => rfl) <|
      .cons ((Cell.follows_word _).field fun _ _ _ => rfl) <|
      .cons ((Cell.follows_word _).field fun _ _ _ => rfl) <|
      .cons ((Cell.follows_single _).added ?_ ?_) .nil
    · intro minor x a hminor
      simp [asOf, asIs, hminor]
    · intro x a
      simp [asOf]
  · intro minor
    simp [asOf, layout, StageProps.layout, Layout.inOrder, initial]

/-! ## What is read of several records -/

theorem Source.word_iff {s : Source} {what : String} {op : Operand} {n : UInt32} :
    s.word what op = .ok n ↔ s.program.word? op = some n := by
  rw [word, bind_eq_ok]
  simp only [constant_iff, Program.word?]
  constructor
  · rintro ⟨c, hc, hn⟩
    simp only [hc]
    cases hw : c.int?.bind word? with
    | none =>
      rw [hw] at hn
      cases hn
    | some w =>
      rw [hw] at hn
      cases hn
      rfl
  · intro hn
    split at hn
    · next c hc =>
      refine ⟨c, hc, ?_⟩
      rw [hn]
      rfl
    · cases hn

theorem Source.member_iff {α : Type} [Numbered α] {s : Source} {what : String} {op : Operand} {a : α} :
    s.member what op = .ok a ↔ (s.program.word? op).bind Numbered.ofCode? = some a := by
  rw [member, bind_eq_ok, Option.bind_eq_some_iff]
  simp only [word_iff]
  refine exists_congr fun n => and_congr_right fun _ => ?_
  cases (Numbered.ofCode? n : Option α) with
  | none => simp
  | some b => simp [pure, Except.pure]

namespace StageProps

theorem readStage_iff {s : Source} {h : Handle .node} {stage : Stage} :
    readStage s h = .ok stage ↔ s.program.stage? (some h) = some stage := by
  rw [readStage, bind_eq_ok]
  simp only [Source.operands_iff, Program.stage?]
  constructor
  · rintro ⟨ops, hops, hstage⟩
    rcases ops with - | ⟨_, - | ⟨op, rest⟩⟩
    · cases hstage
    · cases hstage
    · simp only [hops]
      exact (Source.member_iff (α := Stage)).1 hstage
  · intro hstage
    split at hstage
    · next op _ hops => exact ⟨_, hops, Source.member_iff.2 hstage⟩
    · cases hstage

theorem inBounds_readStage (s : Source) (h : Handle .node) : InBounds (readStage s h) := by
  refine (Source.inBounds_operands h).bind fun ops _ => ?_
  split
  · exact (Cell.follows_member (α := Stage) _).inBounds s _
  · simp

/-- Reads the properties of a stage that is known. -/
def readOf : Stage → Source → Handle .node → Except Fault (Handle .function × StageProps)
  | .compute, s, h => Prod.map id .compute <$> ComputeProps.layout.read s h
  | .geometry, s, h => Prod.map id .geometry <$> GeometryProps.layout.read s h
  | .hull, s, h => Prod.map id .hull <$> HullProps.layout.read s h
  | .domain, s, h => Prod.map id .domain <$> DomainProps.layout.read s h
  | .vertex, s, h => Prod.map id .vertex <$> VertexProps.layout.read s h
  | .pixel, s, h => Prod.map id .pixel <$> PixelProps.layout.read s h

theorem read_eq (s : Source) (h : Handle .node) :
    read s h = readStage s h >>= fun stage => readOf stage s h := by
  refine congrArg _ (funext fun stage => ?_)
  cases stage <;> rfl

theorem follows_readOf (stage : Stage) :
    Follows some (readOf stage) (.flat (.props stage)) (asOfSecond asOf) := by
  cases stage with
  | compute => exact ComputeProps.follows_layout.map fun _ _ => rfl
  | geometry => exact GeometryProps.follows_layout.map fun _ _ => rfl
  | hull => exact HullProps.follows_layout.map fun _ _ => rfl
  | domain => exact DomainProps.follows_layout.map fun _ _ => rfl
  | vertex => exact VertexProps.follows_layout.map fun _ _ => rfl
  | pixel => exact PixelProps.follows_layout.map fun _ _ => rfl

theorem follows_read :
    Follows some read (.staged fun stage => .flat (.props stage)) (asOfSecond asOf) where
  inBounds s h := by
    rw [read_eq]
    exact (inBounds_readStage s h).bind fun stage _ => (follows_readOf stage).inBounds s h
  sound s h x hx := by
    rw [read_eq] at hx
    obtain ⟨stage, hstage, hx⟩ := bind_eq_ok.1 hx
    exact Form.sound_staged (readStage_iff.1 hstage) ((follows_readOf stage).sound s h x hx)
  carries hr hform hx := by
    rw [read_eq] at hx ⊢
    obtain ⟨stage, hstage, hx⟩ := bind_eq_ok.1 hx
    obtain ⟨stage', hfirst, hsecond, hform⟩ := hform
    rw [readStage_iff.1 hstage] at hfirst
    cases hfirst
    exact bind_eq_ok.2 ⟨stage, readStage_iff.2 hsecond, (follows_readOf stage).carries hr hform hx⟩

end StageProps

/-- The bits that are read at the current version are all known to newer ones. -/
theorem Options.follows_read : Follows some Options.read (.flat .options) asIs where
  inBounds s h := by
    refine (follows_layout.inBounds s h).bind fun x _ => ?_
    split
    · simp
    · split <;> simp
  sound s h x hx := by
    obtain ⟨y, hy, -⟩ := bind_eq_ok.1 hx
    exact follows_layout.sound s h y hy
  carries {s s' fits x y a} hr hform ha := by
    obtain ⟨b, hb, ha⟩ := bind_eq_ok.1 ha
    refine bind_eq_ok.2 ⟨b, follows_layout.carries hr hform hb, ?_⟩
    simp only [hr.minor, gt_iff_lt, UInt32.lt_irrefl, if_false] at ha
    unfold ofBits? at ha
    split at ha
    · next known heq =>
      split at heq
      · next hbits =>
        cases heq
        cases ha
        simp only [asIs, ofBits?, ofBitsKnown, hbits, and_known hbits, if_true]
        split <;> rfl
      · cases heq
    · cases ha

/-! ### Tables -/

section Table

variable {kind : Kind} {α γ : Type}

/-- Entering entries while they are read is entering them afterwards. -/
theorem foldlM_insert_eq (get : γ → Except Fault (Handle kind × α)) (ops : List γ)
    (m : Ordered (Handle kind) α) :
    ops.foldlM (fun t op => do let e ← get op; return t.insert e.1 e.2) m =
      (fun es => es.foldl (fun t e => t.insert e.1 e.2) m) <$> ops.mapM get := by
  induction ops generalizing m with
  | nil => rfl
  | cons op ops ih =>
    rw [List.foldlM_cons, List.mapM_cons]
    cases get op with
    | error e => rfl
    | ok e =>
      show List.foldlM _ (m.insert e.1 e.2) ops = _ <$> (ops.mapM get >>= fun es => pure (e :: es))
      rw [ih]
      cases ops.mapM get <;> rfl

theorem Source.readTable_eq_map (l : Layout (Handle kind × α)) (s : Source) (n : Handle .node) :
    s.readTable l n = Ordered.ofList <$> (do (← s.operands n).mapM (entry l s)) := by
  simp only [readTable_eq, foldlM_insert_eq]
  cases s.operands n <;> rfl

variable {l : Layout (Handle kind × α)} {form : Form} {asOf : UInt32 → α → α}

/-- A table follows the form of its entries. What came in later is in the values. -/
theorem Source.follows_readTable (h : Follows some l.read form (asOfSecond asOf)) :
    Follows some (fun s n => s.readTable l n) (.list form) fun minor => Ordered.mapValues (asOf minor) := by
  have hentry : Follows id (fun s => entry l s) form (asOfSecond asOf) :=
    h.needed (by simp) (fun _ _ => rfl) fun _ => rfl
  simp only [readTable_eq_map]
  exact (Follows.uniform Opens.operands hentry).map fun minor => Ordered.mapValues_ofList (asOf minor)

/-- A table to whose entries nothing was added. -/
theorem Source.follows_oldTable (h : Follows some l.read form (asOfSecond asIs)) :
    Follows some (fun s n => s.readTable l n) (.list form) asIs := by
  have hmap : (fun minor => Ordered.mapValues (κ := Handle kind) (asIs (α := α) minor)) = asIs := by
    funext minor t
    exact congrArg Ordered.mk (List.map_id _)
  rw [← hmap]
  exact follows_readTable h

end Table

end ShaderModule
