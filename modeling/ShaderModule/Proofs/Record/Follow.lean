import ShaderModule.Proofs.Record.Layout
import ShaderModule.Proofs.Record.Schema

/-!
# Readers follow the schema

A reader follows a form if it asks records only for fields that they have, if it refuses a record
with a wrong number of operands wherever the form leads to one, and if it reads the same from recast
metadata, as far as that is of a version that knows it. Readers are composed of others, and so is what they follow.
-/

namespace ShaderModule

/-! ## Staying in bounds -/

/-- No record is asked for a field that it does not have. -/
def InBounds {α : Type} (x : Except Fault α) : Prop := ∀ what i, x ≠ .error (.noField what i)

namespace InBounds

variable {α β : Type}

@[simp] theorem ok (a : α) : InBounds (.ok a) := by simp [InBounds]

@[simp] theorem pure (a : α) : InBounds (pure a) := ok a

@[simp] theorem error {f : Fault} :
    InBounds (.error f : Except Fault α) ↔ ∀ what i, f ≠ .noField what i := by
  simp [InBounds]

@[simp] theorem throw {f : Fault} :
    InBounds (throw f : Except Fault α) ↔ ∀ what i, f ≠ .noField what i := error

theorem bind {x : Except Fault α} {f : α → Except Fault β} (hx : InBounds x)
    (hf : ∀ a, x = .ok a → InBounds (f a)) : InBounds (x >>= f) := by
  cases x with
  | error e =>
    intro what i h
    exact hx what i (congrArg _ (Except.error.inj h))
  | ok a => exact hf a rfl

theorem map {x : Except Fault α} (hx : InBounds x) (f : α → β) : InBounds (f <$> x) := by
  rw [map_eq_pure_bind]
  exact hx.bind fun a _ => pure (f a)

theorem mapM {f : α → Except Fault β} {xs : List α} (h : ∀ x ∈ xs, InBounds (f x)) :
    InBounds (xs.mapM f) := by
  induction xs with
  | nil => exact ok []
  | cons x xs ih =>
    rw [List.mapM_cons]
    refine bind (h x List.mem_cons_self) fun b _ => bind (ih ?_) fun bs _ => ok _
    exact fun y hy => h y (List.mem_cons_of_mem _ hy)

theorem foldlM {f : β → α → Except Fault β} {xs : List α} (h : ∀ b, ∀ x ∈ xs, InBounds (f b x)) (b : β) :
    InBounds (xs.foldlM f b) := by
  induction xs generalizing b with
  | nil => exact ok b
  | cons x xs ih =>
    rw [List.foldlM_cons]
    refine bind (h b x List.mem_cons_self) fun c _ => ih ?_ c
    exact fun c y hy => h c y (List.mem_cons_of_mem _ hy)

end InBounds

/-! ## Recast sources -/

/-- The one source has metadata of the current version; in the other, records of numbers of operands that
`fits` allows for are accepted. -/
structure Recasting (s s' : Source) (fits : RecordKind → Nat → Nat → Prop) : Prop where
  minor   : s.minor = Version.current.minor
  has     : ∀ e, s.program.has e → s'.program.has e
  accepts : ∀ k n, fits k (k.arity Version.current.minor) n → k.Accepts s'.minor n

/-- A value of which no part came in with a later version. -/
def asIs {α : Type} (_ : UInt32) (a : α) : α := a

theorem map_asIs {α : Type} : (fun minor => List.map (asIs (α := α) minor)) = asIs := by
  funext minor xs
  exact List.map_id xs

/-- A pair of which the first part has been there all along. -/
def asOfSecond {α β : Type} (asOf : UInt32 → β → β) (minor : UInt32) (x : α × β) : α × β :=
  (x.1, asOf minor x.2)

/-- A reader follows a form. `place` is the operand that is read; `asOf` is what of a value was known at
a minor version. -/
structure Follows {β α : Type} (place : β → Operand) (read : Source → β → Except Fault α) (form : Form)
    (asOf : UInt32 → α → α) : Prop where
  inBounds : ∀ s x, InBounds (read s x)
  sound    : ∀ s x a, read s x = .ok a → form.Sound s (place x)
  carries  : ∀ {s s' fits x y a}, Recasting s s' fits →
    form.Recast s.program s'.program fits (place x) (place y) → read s x = .ok a →
      read s' y = .ok (asOf s'.minor a)

namespace Follows

variable {α β γ : Type} {place : β → Operand} {read : Source → β → Except Fault α} {form : Form}
  {asOf : UInt32 → α → α}

theorem bind (h : Follows place read form asIs) {f : α → Except Fault γ} (hf : ∀ a, InBounds (f a)) :
    Follows place (fun s x => read s x >>= f) form asIs where
  inBounds s x := (h.inBounds s x).bind fun a _ => hf a
  sound s x c hc := by
    obtain ⟨a, ha, -⟩ := bind_eq_ok.1 hc
    exact h.sound s x a ha
  carries hr hform hc := by
    obtain ⟨a, ha, hc⟩ := bind_eq_ok.1 hc
    exact bind_eq_ok.2 ⟨a, h.carries hr hform ha, hc⟩

theorem map (h : Follows place read form asOf) {f : α → γ} {asOf' : UInt32 → γ → γ}
    (hf : ∀ minor a, asOf' minor (f a) = f (asOf minor a)) :
    Follows place (fun s x => f <$> read s x) form asOf' where
  inBounds s x := (h.inBounds s x).map f
  sound s x c hc := by
    obtain ⟨a, ha, -⟩ := map_eq_ok.1 hc
    exact h.sound s x a ha
  carries hr hform hc := by
    obtain ⟨a, ha, rfl⟩ := map_eq_ok.1 hc
    exact map_eq_ok.2 ⟨_, h.carries hr hform ha, (hf _ a).symm⟩

/-- A reader of a node as the reader of an operand that must not be null. -/
theorem needed {read : Source → Handle .node → Except Fault α} (h : Follows some read form asOf)
    {get : Source → Operand → Except Fault α} {fault : Fault} (hf : ∀ what i, fault ≠ .noField what i)
    (hsome : ∀ s n, get s (some n) = read s n) (hnone : ∀ s, get s none = .error fault) :
    Follows id get form asOf where
  inBounds s op := by
    cases op with
    | some n =>
      rw [hsome]
      exact h.inBounds s n
    | none =>
      rw [hnone]
      exact InBounds.error.2 hf
  sound s op a ha := by
    cases op with
    | some n => exact h.sound s n a (hsome s n ▸ ha)
    | none => cases (hnone s).symm.trans ha
  carries {s s' fits x y a} hr hform ha := by
    cases x with
    | none => cases (hnone s).symm.trans ha
    | some n =>
      obtain ⟨k, hk⟩ := hform.exists_some
      obtain rfl : y = some k := hk
      rw [hsome] at ha ⊢
      exact h.carries hr hform ha

end Follows

/-- What a cell reads follows a form. -/
abbrev Cell.Follows {α : Type} (c : Cell α) (form : Form) (asOf : UInt32 → α → α) : Prop :=
  ShaderModule.Follows id c.get form asOf

/-! ## Scalars -/

/-- What is read of an operand is decided by what it holds. -/
abbrev ReadsScalar {α : Type} (read : Source → Operand → Except Fault α) : Prop :=
  Follows id read .scalar asIs

namespace Source

variable {s : Source} {what : String} {op : Operand}

theorem node_iff {h : Handle .node} {n : Node} : s.node h = .ok n ↔ s.program.node? h = some n := by
  unfold node
  cases s.program.node? h <;> simp

theorem required_iff {n : Node} :
    s.required what op = .ok n ↔ ∃ h, op = some h ∧ s.program.node? h = some n := by
  cases op with
  | none => simp [required]
  | some h => simp [required, node_iff]

theorem value_iff {v : Value} :
    s.value what op = .ok v ↔ ∃ h, op = some h ∧ s.program.node? h = some (.value v) := by
  rw [value, bind_eq_ok]
  constructor
  · rintro ⟨n, hn, hv⟩
    obtain ⟨h, rfl, hnode⟩ := required_iff.1 hn
    cases n with
    | value w =>
      cases hv
      exact ⟨h, rfl, hnode⟩
    | _ => cases hv
  · rintro ⟨h, rfl, hnode⟩
    exact ⟨.value v, required_iff.2 ⟨h, rfl, hnode⟩, rfl⟩

theorem constant_iff {c : Constant} :
    s.constant what op = .ok c ↔ s.program.content? op = some (.constant c) := by
  rw [constant, bind_eq_ok]
  constructor
  · rintro ⟨v, hv, hc⟩
    obtain ⟨h, rfl, hn⟩ := value_iff.1 hv
    cases v with
    | constant k =>
      simp only at hc
      split at hc
      · next c hk =>
        cases hc
        simp [Program.content?, hn, Program.held, hk]
      · cases hc
    | _ => cases hc
  · intro hc
    cases op with
    | none => cases hc
    | some h =>
      obtain ⟨n, hn, hheld⟩ := Option.bind_eq_some_iff.1 hc
      obtain ⟨k, rfl, hk⟩ := Program.held_eq_constant.1 hheld
      refine ⟨.constant k, value_iff.2 ⟨h, rfl, hn⟩, ?_⟩
      simp only [hk]
      rfl

theorem string_iff {text : String} :
    s.string what op = .ok text ↔ s.program.content? op = some (.text text) := by
  rw [string, bind_eq_ok]
  constructor
  · rintro ⟨n, hn, htext⟩
    obtain ⟨h, rfl, hnode⟩ := required_iff.1 hn
    cases n with
    | string text =>
      cases htext
      simp [Program.content?, hnode, Program.held]
    | _ => cases htext
  · intro hc
    cases op with
    | none => cases hc
    | some h =>
      obtain ⟨n, hn, hheld⟩ := Option.bind_eq_some_iff.1 hc
      obtain rfl := Program.held_eq_text.1 hheld
      exact ⟨.string text, required_iff.2 ⟨h, rfl, hn⟩, rfl⟩

/-- A value that is no constant is read off what the operand holds. -/
theorem value_iff_content (what : String) {v : Value} (hv : ∀ c, v ≠ .constant c) :
    s.value what op = .ok v ↔ s.program.content? op = some (.value v) := by
  rw [value_iff]
  cases op with
  | none => simp [Program.content?]
  | some h => simp [Program.content?, Option.bind_eq_some_iff, Program.held_eq_value hv]

theorem global_iff {g : Handle .global} :
    s.global what op = .ok g ↔
      s.program.content? op = some (.value (.global g)) ∧ s.program.hasGlobal g := by
  rw [global_eq_ok, value_iff_content what (by simp)]

theorem function_iff {f : Handle .function} :
    s.function what op = .ok f ↔
      s.program.content? op = some (.value (.function f)) ∧ s.program.hasFunction f := by
  rw [function_eq_ok, value_iff_content what (by simp)]

/-! ### Bounds -/

theorem inBounds_node (h : Handle .node) : InBounds (s.node h) := by
  unfold node
  split <;> simp

theorem inBounds_operands (h : Handle .node) : InBounds (s.operands h) :=
  (inBounds_node h).bind fun n _ => by cases n <;> simp

theorem inBounds_required : InBounds (s.required what op) := by
  cases op with
  | none => simp [required]
  | some h => exact inBounds_node h

theorem inBounds_value : InBounds (s.value what op) :=
  inBounds_required.bind fun n _ => by cases n <;> simp

theorem inBounds_constant : InBounds (s.constant what op) := by
  refine inBounds_value.bind fun v _ => ?_
  split
  · split <;> simp
  · simp

theorem inBounds_string : InBounds (s.string what op) :=
  inBounds_required.bind fun n _ => by cases n <;> simp

theorem inBounds_global : InBounds (s.global what op) := by
  refine inBounds_value.bind fun v _ => ?_
  split
  · split <;> simp
  · simp

theorem inBounds_function : InBounds (s.function what op) := by
  refine inBounds_value.bind fun v _ => ?_
  split
  · split <;> simp
  · simp

end Source

namespace ReadsScalar

variable {α : Type} {read : Source → Operand → Except Fault α}

/-- A scalar that refers to entities of the program. -/
theorem of_iff (holds : α → Content) (refs : α → List Entity)
    (hb : ∀ s op, InBounds (read s op))
    (h : ∀ s op a, read s op = .ok a ↔
      s.program.content? op = some (holds a) ∧ ∀ e ∈ refs a, s.program.has e) : ReadsScalar read where
  inBounds := hb
  sound _ _ _ _ := Form.sound_scalar
  carries hr hform ha := by
    obtain ⟨hc, he⟩ := (h _ _ _).1 ha
    exact (h _ _ _).2 ⟨hform.symm.trans hc, fun e hmem => hr.has e (he e hmem)⟩

theorem constant (what : String) : ReadsScalar fun s => s.constant what :=
  of_iff .constant noRefs (fun _ _ => Source.inBounds_constant)
    fun _ _ _ => by simp [Source.constant_iff, noRefs]

theorem int (what : String) : ReadsScalar fun s => s.int what :=
  (constant what).bind fun _ => by split <;> simp

/-- An operand that may be null is null in both or in neither. -/
theorem optional (h : ReadsScalar read) : ReadsScalar fun s => Source.optional (read s) where
  inBounds s op := by
    cases op with
    | none => exact .ok none
    | some n => exact (h.inBounds s (some n)).map some
  sound _ _ _ _ := Form.sound_scalar
  carries {s s' fits x y a} hr hform ha := by
    cases x with
    | none =>
      cases ha
      obtain rfl : y = none := Program.content?_eq_null.1 (Eq.symm hform)
      rfl
    | some n =>
      obtain ⟨k, hk⟩ := hform.exists_some
      obtain rfl : y = some k := hk
      obtain ⟨b, hb, rfl⟩ := map_eq_ok.1 ha
      exact map_eq_ok.2 ⟨b, h.carries hr hform hb, rfl⟩

end ReadsScalar

namespace Cell

variable {α : Type} (what : String)

theorem follows_word : (word what).Follows .scalar asIs :=
  (ReadsScalar.constant what).bind fun _ => by split <;> simp

theorem follows_optionalWord : (optionalWord what).Follows .scalar asIs := by
  refine (ReadsScalar.int what).bind fun n => ?_
  split
  · simp
  · split <;> simp

theorem follows_bool : (bool what).Follows .scalar asIs := by
  refine (ReadsScalar.int what).bind fun n => ?_
  split
  · simp
  · split <;> simp

theorem follows_single : (single what).Follows .scalar asIs :=
  (ReadsScalar.constant what).bind fun _ => by split <;> simp

theorem follows_member [Numbered α] : (member what : Cell α).Follows .scalar asIs :=
  (follows_word what).bind fun _ => by split <;> simp

theorem follows_bytes : (bytes what).Follows .scalar asIs :=
  (ReadsScalar.constant what).bind fun _ => by split <;> simp

theorem follows_placeholder : (placeholder what).Follows .scalar asIs :=
  (ReadsScalar.constant what).bind fun _ => by split <;> simp

theorem follows_string : (string what).Follows .scalar asIs :=
  ReadsScalar.of_iff .text noRefs (fun _ _ => Source.inBounds_string)
    fun _ _ _ => by simp [string, plain, Source.string_iff, noRefs]

theorem follows_global : (global what).Follows .scalar asIs :=
  ReadsScalar.of_iff (fun g => .value (.global g)) (fun g => [.global g])
    (fun _ _ => Source.inBounds_global) fun _ _ _ => by simp [global, plain, Source.global_iff, Program.has]

theorem follows_function : (function what).Follows .scalar asIs :=
  ReadsScalar.of_iff (fun f => .value (.function f)) (fun f => [.function f])
    (fun _ _ => Source.inBounds_function) fun _ _ _ => by simp [function, plain, Source.function_iff, Program.has]

theorem follows_optionalString : (optionalString what).Follows .scalar asIs :=
  ReadsScalar.optional (follows_string what)

theorem follows_optionalGlobal : (optionalGlobal what).Follows .scalar asIs :=
  ReadsScalar.optional (follows_global what)

theorem follows_optionalFunction : (optionalFunction what).Follows .scalar asIs :=
  ReadsScalar.optional (follows_function what)

theorem follows_stage : stage.Follows .scalar asIs :=
  (follows_string _).bind fun _ => by split <;> simp

end Cell

/-! ## Lists -/

/-- A reader of the operands of a tuple. Null may stand for a tuple without operands. -/
structure Opens {β : Type} (place : β → Operand) (opening : Source → β → Except Fault (List Operand))
    (nullable : Prop) : Prop where
  inBounds : ∀ s x, InBounds (opening s x)
  iff : ∀ s x xs, opening s x = .ok xs ↔
    s.program.tuple? (place x) = some xs ∨ nullable ∧ place x = none ∧ xs = []

theorem Source.operands_iff {s : Source} {h : Handle .node} {xs : List Operand} :
    s.operands h = .ok xs ↔ s.program.tuple? (some h) = some xs := by
  rw [operands, bind_eq_ok]
  simp only [node_iff, Program.tuple?]
  constructor
  · rintro ⟨n, hn, hxs⟩
    cases n with
    | tuple ops =>
      cases hxs
      rw [hn]
    | _ => cases hxs
  · intro hxs
    split at hxs
    · next ops hn =>
      cases hxs
      exact ⟨_, hn, rfl⟩
    · cases hxs

theorem Opens.operands : Opens some (fun s h => s.operands h) False where
  inBounds _ h := Source.inBounds_operands h
  iff _ _ _ := by simp [Source.operands_iff]

theorem Opens.list : Opens id (fun s op => s.list op) True where
  inBounds s op := by
    cases op with
    | none => exact .ok []
    | some h => exact Source.inBounds_operands h
  iff s op xs := by
    cases op with
    | none => simp [Source.list, Program.tuple?, eq_comm]
    | some h => simp [Source.list, Source.operands_iff]

section List

variable {α : Type} {get : Nat → Source → Operand → Except Fault α} {form : Form}
  {asOf : UInt32 → α → α}

/-- The entries of a list, each read as its position says. -/
theorem carries_entries (hget : ∀ i, Follows id (get i) form asOf) {s s' : Source}
    {fits : RecordKind → Nat → Nat → Prop} (hr : Recasting s s' fits) {xs ys : List Operand}
    (hform : List.Forall₂ (form.Recast s.program s'.program fits) xs ys) :
    ∀ {k : Nat} {as : List α}, (xs.zipIdx k).mapM (fun e => get e.2 s e.1) = .ok as →
      (ys.zipIdx k).mapM (fun e => get e.2 s' e.1) = .ok (as.map (asOf s'.minor)) := by
  induction hform with
  | nil =>
    intro k as h
    cases h
    rfl
  | cons hxy _ ih =>
    intro k as h
    rw [List.zipIdx_cons, List.mapM_cons] at h ⊢
    obtain ⟨b, hb, h⟩ := bind_eq_ok.1 h
    obtain ⟨bs, hbs, h⟩ := bind_eq_ok.1 h
    cases h
    refine bind_eq_ok.2 ⟨_, (hget k).carries hr hxy hb, bind_eq_ok.2 ⟨_, ih hbs, rfl⟩⟩

/-- A list follows the form of its entries. -/
theorem Follows.list {β : Type} {place : β → Operand}
    {opening : Source → β → Except Fault (List Operand)} {nullable : Prop}
    (ho : Opens place opening nullable) (hget : ∀ i, Follows id (get i) form asOf) :
    Follows place (fun s x => do (← opening s x).zipIdx.mapM fun e => get e.2 s e.1) (.list form)
      fun minor => List.map (asOf minor) where
  inBounds s x := (ho.inBounds s x).bind fun xs _ => .mapM fun e _ => (hget e.2).inBounds s e.1
  sound s x as h := by
    obtain ⟨xs, hxs, h⟩ := bind_eq_ok.1 h
    refine Form.sound_list fun zs hzs z hz => ?_
    have heq : opening s x = .ok zs := (ho.iff s x zs).2 (.inl hzs)
    rw [hxs] at heq
    cases heq
    obtain ⟨i, hi, rfl⟩ := List.getElem_of_mem hz
    have hmem : (xs[i], i) ∈ xs.zipIdx := by simp [List.mk_mem_zipIdx_iff_getElem?]
    obtain ⟨a, -, ha⟩ := exists_forall₂ (mapM_eq_ok.1 h).flip hmem
    exact (hget i).sound s xs[i] a ha
  carries {s s' fits x y as} hr hform h := by
    obtain ⟨xs, hxs, h⟩ := bind_eq_ok.1 h
    rcases hform with ⟨hx, hy⟩ | ⟨zs, ys, hzs, hys, hentries⟩
    · rcases (ho.iff s x xs).1 hxs with hxs | ⟨hnull, -, rfl⟩
      · rw [hx] at hxs
        cases hxs
      · cases h
        exact bind_eq_ok.2 ⟨[], (ho.iff s' y []).2 (.inr ⟨hnull, hy, rfl⟩), rfl⟩
    · have heq : opening s x = .ok zs := (ho.iff s x zs).2 (.inl hzs)
      rw [hxs] at heq
      cases heq
      exact bind_eq_ok.2 ⟨ys, (ho.iff s' y ys).2 (.inl hys), carries_entries hget hr hentries h⟩

/-- The entries of a list, all read alike. -/
theorem Follows.uniform {β : Type} {place : β → Operand}
    {opening : Source → β → Except Fault (List Operand)} {nullable : Prop}
    (ho : Opens place opening nullable) {get : Source → Operand → Except Fault α}
    (hget : Follows id get form asOf) :
    Follows place (fun s x => do (← opening s x).mapM (get s)) (.list form)
      fun minor => List.map (asOf minor) := by
  have h := Follows.list ho fun _ => hget
  have hget : ∀ s (xs : List Operand), xs.mapM (get s) = xs.zipIdx.mapM fun e => get s e.1 := by
    intro s xs
    conv_lhs => rw [← List.zipIdx_map_fst 0 xs, List.mapM_map]
    rfl
  simpa only [hget] using h

end List

namespace Cell

variable {α : Type} {form : Form} {asOf : UInt32 → α → α}

/-- When an operand is built does not matter for reading it. -/
theorem Follows.early {c : Cell α} (hc : c.Follows form asOf) : c.early.Follows form asOf :=
  ⟨hc.inBounds, hc.sound, hc.carries⟩

theorem Follows.late {c : Cell α} (hc : c.Follows form asOf) : c.late.Follows form asOf :=
  ⟨hc.inBounds, hc.sound, hc.carries⟩

theorem follows_record (missing : String) {l : Layout α} (h : ShaderModule.Follows some l.read form asOf) :
    (record missing l).Follows form asOf :=
  h.needed (by simp) (fun _ _ => rfl) fun _ => rfl

theorem follows_list (missing : Nat → String) {layout : Nat → Layout α}
    (h : ∀ i, ShaderModule.Follows some (layout i).read form asOf) :
    (list missing layout).Follows (.list form) fun minor => List.map (asOf minor) := by
  have hget : ∀ i, ShaderModule.Follows id (fun s => readEntry missing layout s i) form asOf := by
    intro i
    exact (h i).needed (by simp) (fun _ _ => rfl) fun _ => rfl
  exact ShaderModule.Follows.list Opens.list hget

/-- A list of records of which no part came in later. -/
theorem follows_oldList (missing : Nat → String) {layout : Nat → Layout α}
    (h : ∀ i, ShaderModule.Follows some (layout i).read form asIs) :
    (list missing layout).Follows (.list form) asIs := by
  rw [← map_asIs]
  exact follows_list missing h

theorem follows_words (whole each : String) : (words whole each).Follows (.list .scalar) asIs := by
  have h := ShaderModule.Follows.uniform Opens.operands (follows_word each)
  rw [map_asIs] at h
  exact h.needed (by simp) (fun _ _ => rfl) fun _ => rfl

end Cell

end ShaderModule
