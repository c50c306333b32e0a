import ShaderModule.Proofs.Record.Follow

/-!
# Layouts follow the schema

If every slot of a layout follows the form of its field, the layout follows the form of the record:
the slots of a minor version are just those that have an operand in a record of that version.
-/

namespace ShaderModule

/-! ## Slots -/

section Slot

variable {ρ : Type}

/-- A slot follows a form. At a minor version that lacks the field, what it reads is not known. -/
structure Slot.Follows (f : Slot ρ) (form : Form) (asOf : UInt32 → ρ → ρ) : Prop where
  inBounds : ∀ s op x, InBounds (f.get s op x)
  sound    : ∀ s op x y, f.get s op x = .ok y → form.Sound s op
  carries  : ∀ {s s' fits a b x y}, Recasting s s' fits → form.Recast s.program s'.program fits a b →
    f.since ≤ s'.minor → f.get s a x = .ok y → f.get s' b (asOf s'.minor x) = .ok (asOf s'.minor y)
  forgets  : ∀ {s op x y minor}, minor < f.since → f.get s op x = .ok y → asOf minor y = asOf minor x

variable {form : Form} {asOf : UInt32 → ρ → ρ}

theorem Cell.Follows.field {α : Type} {c : Cell α} {asOf' : UInt32 → α → α} (hc : c.Follows form asOf')
    {view : ρ → α} {update : ρ → α → ρ}
    (h : ∀ minor x a, asOf minor (update x a) = update (asOf minor x) (asOf' minor a)) :
    (c.field view update).Follows form asOf where
  inBounds s op x := (hc.inBounds s op).map _
  sound s op x y hy := by
    obtain ⟨a, ha, -⟩ := map_eq_ok.1 hy
    exact hc.sound s op a ha
  carries hr hform _ hy := by
    obtain ⟨a, ha, rfl⟩ := map_eq_ok.1 hy
    exact map_eq_ok.2 ⟨_, hc.carries hr hform ha, (h _ _ _).symm⟩
  forgets hminor := absurd hminor UInt32.not_lt_zero

/-- A field that came in with minor version 1. -/
theorem Cell.Follows.added {α : Type} {c : Cell α} {asOf' : UInt32 → α → α} (hc : c.Follows form asOf')
    {view : ρ → α} {update : ρ → α → ρ}
    (hnew : ∀ minor x a, minor ≠ 0 → asOf minor (update x a) = update (asOf minor x) (asOf' minor a))
    (hold : ∀ x a, asOf 0 (update x a) = asOf 0 x) :
    ((c.field view update).added 1).Follows form asOf where
  inBounds s op x := (hc.inBounds s op).map _
  sound s op x y hy := by
    obtain ⟨a, ha, -⟩ := map_eq_ok.1 hy
    exact hc.sound s op a ha
  carries hr hform hminor hy := by
    obtain ⟨a, ha, rfl⟩ := map_eq_ok.1 hy
    refine map_eq_ok.2 ⟨_, hc.carries hr hform ha, (hnew _ _ _ ?_).symm⟩
    rintro hzero
    rw [hzero] at hminor
    exact absurd hminor (by decide : ¬ (1 : UInt32) ≤ 0)
  forgets {s op x y minor} hminor hy := by
    obtain ⟨a, -, rfl⟩ := map_eq_ok.1 hy
    obtain rfl : minor = 0 := by
      simpa [Slot.added, UInt32.lt_iff_toNat_lt, ← UInt32.toNat_inj] using hminor
    exact hold x a

namespace Slot.Follows

variable {f : Slot ρ}

theorem checked_eq_ok {fault? : ρ → Option Fault} {s : Source} {op : Operand} {x y : ρ} :
    (f.checked fault?).get s op x = .ok y ↔ f.get s op x = .ok y ∧ fault? y = none := by
  rw [Slot.checked, bind_eq_ok]
  constructor
  · rintro ⟨z, hz, hcheck⟩
    cases hf : fault? z with
    | none =>
      rw [hf] at hcheck
      cases hcheck
      exact ⟨hz, hf⟩
    | some e =>
      rw [hf] at hcheck
      cases hcheck
  · rintro ⟨hy, hf⟩
    refine ⟨y, hy, ?_⟩
    rw [hf]
    rfl

theorem checked (hf : f.Follows form asOf) {fault? : ρ → Option Fault}
    (hfault : ∀ x what i, fault? x ≠ some (.noField what i))
    (h : ∀ minor x, fault? (asOf minor x) = fault? x) : (f.checked fault?).Follows form asOf where
  inBounds s op x := by
    refine (hf.inBounds s op x).bind fun y _ => ?_
    split
    · next e he => exact InBounds.throw.2 fun what i heq => hfault y what i (heq ▸ he)
    · simp
  sound s op x y hy := hf.sound s op x y (checked_eq_ok.1 hy).1
  carries hr hform hminor hy := by
    obtain ⟨hy, hnone⟩ := checked_eq_ok.1 hy
    exact checked_eq_ok.2 ⟨hf.carries hr hform hminor hy, (h _ _).trans hnone⟩
  forgets hminor hy := hf.forgets hminor (checked_eq_ok.1 hy).1

theorem second {σ : Type} (hf : f.Follows form asOf) :
    (f.second : Slot (σ × ρ)).Follows form (asOfSecond asOf) where
  inBounds s op x := (hf.inBounds s op x.2).map _
  sound s op x y hy := by
    obtain ⟨z, hz, -⟩ := map_eq_ok.1 hy
    exact hf.sound s op x.2 z hz
  carries hr hform hminor hy := by
    obtain ⟨z, hz, rfl⟩ := map_eq_ok.1 hy
    exact map_eq_ok.2 ⟨_, hf.carries hr hform hminor hz, rfl⟩
  forgets hminor hy := by
    obtain ⟨z, hz, rfl⟩ := map_eq_ok.1 hy
    exact Prod.ext rfl (hf.forgets hminor hz)

end Slot.Follows

/-- Slots follow forms, one for each position. -/
def Slot.FollowAll (fs : List (Slot ρ)) (field : Nat → Form) (asOf : UInt32 → ρ → ρ) : Prop :=
  ∀ (i : Nat) (f : Slot ρ), fs[i]? = some f → f.Follows (field i) asOf

namespace Slot.FollowAll

variable {f : Slot ρ} {fs gs : List (Slot ρ)} {field : Nat → Form}

theorem nil : FollowAll [] field asOf := by
  intro i f hf
  cases hf

theorem cons (hf : f.Follows (field 0) asOf) (hfs : FollowAll fs (fun i => field (i + 1)) asOf) :
    FollowAll (f :: fs) field asOf := by
  intro i g hg
  cases i with
  | zero =>
    cases hg
    exact hf
  | succ i => exact hfs i g hg

theorem of_forall (h : ∀ f ∈ fs, f.Follows form asOf) : FollowAll fs (fun _ => form) asOf :=
  fun _ f hf => h f (List.mem_of_getElem? hf)

theorem append (hfs : FollowAll fs field asOf) (hgs : FollowAll gs (fun i => field (fs.length + i)) asOf) :
    FollowAll (fs ++ gs) field asOf := by
  intro i g hg
  rcases Nat.lt_or_ge i fs.length with hi | hi
  · rw [List.getElem?_append_left hi] at hg
    exact hfs i g hg
  · rw [List.getElem?_append_right hi] at hg
    have : g.Follows (field (fs.length + (i - fs.length))) asOf := hgs _ g hg
    rwa [Nat.add_sub_cancel' hi] at this

theorem map {σ : Type} {asOf' : UInt32 → σ → σ} {φ : Slot ρ → Slot σ} (hfs : FollowAll fs field asOf)
    (hφ : ∀ f form, f.Follows form asOf → (φ f).Follows form asOf') :
    FollowAll (fs.map φ) field asOf' := by
  intro i g hg
  rw [List.getElem?_map, Option.map_eq_some_iff] at hg
  obtain ⟨f, hf, rfl⟩ := hg
  exact hφ f _ (hfs i f hf)

end Slot.FollowAll

end Slot

/-! ## Layouts -/

theorem exists_of_foldlM {α β : Type} {f : β → α → Except Fault β} :
    ∀ {xs : List α} {b c : β}, xs.foldlM f b = .ok c → ∀ x ∈ xs, ∃ b c, f b x = .ok c
  | y :: xs, b, c, h, x, hx => by
    rw [List.foldlM_cons] at h
    obtain ⟨d, hd, h⟩ := bind_eq_ok.1 h
    rcases List.mem_cons.1 hx with rfl | hx
    · exact ⟨b, d, hd⟩
    · exact exists_of_foldlM h x hx

/-- Steps that go together make folds that go together. -/
theorem foldlM_of_steps {α β γ : Type} {f : β → α → Except Fault β} {g : γ → α → Except Fault γ} (φ : β → γ)
    (hstep : ∀ b x c, f b x = .ok c → g (φ b) x = .ok (φ c)) :
    ∀ {xs : List α} {b c : β}, xs.foldlM f b = .ok c → xs.foldlM g (φ b) = .ok (φ c)
  | [], b, c, h => by
    cases h
    rfl
  | x :: xs, b, c, h => by
    rw [List.foldlM_cons] at h ⊢
    obtain ⟨d, hd, h⟩ := bind_eq_ok.1 h
    exact bind_eq_ok.2 ⟨φ d, hstep b x d hd, foldlM_of_steps φ hstep h⟩

/-- A record is accepted by the number of its operands, and cut to those of the minor version. -/
theorem Source.record_eq_ite {s : Source} (what : String) (kind : RecordKind) {h : Handle .node}
    {xs : List Operand} (hxs : s.program.tuple? (some h) = some xs) :
    s.record what (kind.arity s.minor) h =
      if kind.Accepts s.minor xs.length then .ok (xs.take (kind.arity s.minor))
      else .error (.fieldCount what xs.length (kind.arity s.minor)) := by
  rw [record, operands_iff.2 hxs]
  by_cases hacc : kind.Accepts s.minor xs.length
  · have hcond := mt RecordKind.not_accepts.2 (not_not.2 hacc)
    simp [hacc, hcond, bind, Except.bind, pure, Except.pure]
  · have hcond := RecordKind.not_accepts.1 hacc
    simp only [bind, Except.bind, hacc, hcond, if_true, if_false]
    rfl

theorem Source.record_iff {s : Source} {what : String} {kind : RecordKind} {h : Handle .node}
    {ops : List Operand} : s.record what (kind.arity s.minor) h = .ok ops ↔
      ∃ xs, s.program.tuple? (some h) = some xs ∧ kind.Accepts s.minor xs.length ∧
        xs.take (kind.arity s.minor) = ops := by
  constructor
  · intro hops
    obtain ⟨xs, hxs, -⟩ := bind_eq_ok.1 hops
    have hxs := operands_iff.1 hxs
    rw [record_eq_ite what kind hxs] at hops
    split at hops
    · next hacc =>
      cases hops
      exact ⟨xs, hxs, hacc, rfl⟩
    · cases hops
  · rintro ⟨xs, hxs, hacc, rfl⟩
    rw [record_eq_ite what kind hxs, if_pos hacc]

theorem Source.inBounds_record {s : Source} {what : String} {arity : Nat} {h : Handle .node} :
    InBounds (s.record what arity h) := by
  refine (inBounds_operands h).bind fun ops _ => ?_
  split
  · exact (InBounds.throw.2 (by simp)).bind fun _ _ => .pure _
  · exact .pure _

namespace Layout

variable {ρ : Type} {l : Layout ρ} {kind : RecordKind} {field : Nat → Form} {asOf : UInt32 → ρ → ρ}

/-- The slots came in when the operands of the kind did. -/
def Dated (l : Layout ρ) (kind : RecordKind) : Prop :=
  l.slots.map (·.since) = List.replicate kind.base 0 ++ if kind.grew then [1] else []

theorem Dated.since_le_iff (h : l.Dated kind) {i : Nat} {f : Slot ρ} (hf : l.slots[i]? = some f)
    (minor : UInt32) : f.since ≤ minor ↔ i < kind.arity minor := by
  have hi : (l.slots.map (·.since))[i]? = some f.since := by simp [hf]
  rw [h, List.getElem?_append, List.length_replicate] at hi
  by_cases hbase : i < kind.base
  · rw [if_pos hbase, List.getElem?_replicate, if_pos hbase] at hi
    have harity := kind.base_le_arity minor
    rw [← Option.some.inj hi]
    simp only [UInt32.zero_le, true_iff]
    omega
  · rw [if_neg hbase] at hi
    cases hgrew : kind.grew with
    | false => simp [hgrew] at hi
    | true =>
      simp only [hgrew, if_true, List.getElem?_singleton] at hi
      split at hi
      · rw [← Option.some.inj hi, RecordKind.arity, hgrew]
        by_cases hminor : 1 ≤ minor
        · simp only [hminor, and_self, if_true, true_iff]
          omega
        · simp only [hminor, and_false, if_false, false_iff]
          omega
      · cases hi

theorem Dated.arity_eq (h : l.Dated kind) (minor : UInt32) : l.arity minor = kind.arity minor := by
  have hcount : l.arity minor = (l.slots.map (·.since)).countP (· ≤ minor) := by
    rw [List.countP_map]
    rfl
  rw [hcount, h, List.countP_append, List.countP_replicate, RecordKind.arity]
  cases kind.grew with
  | false => simp
  | true =>
    by_cases hminor : 1 ≤ minor
    · simp [hminor]
    · simp [hminor]

theorem Dated.length_eq (h : l.Dated kind) : l.slots.length = kind.arity Version.current.minor := by
  have hlen := congrArg List.length h
  rw [List.length_map, List.length_append, List.length_replicate] at hlen
  rw [hlen, RecordKind.arity]
  cases kind.grew <;> simp [Version.current]

/-- Among the operands of a minor version every slot of that version finds its own, and no other slot
finds any. -/
theorem Dated.getElem?_eq (h : l.Dated kind) {i : Nat} {f : Slot ρ} (hf : l.slots[i]? = some f)
    (minor : UInt32) (xs : List Operand) :
    (xs.take (kind.arity minor))[i]? = if f.since ≤ minor then xs[i]? else none := by
  rw [List.getElem?_take]
  simp only [h.since_le_iff hf]

theorem inBounds_readField (h : l.Dated kind) (hslots : Slot.FollowAll l.slots field asOf) {s : Source}
    {xs : List Operand} (hxs : kind.Accepts s.minor xs.length) (x : ρ) (i : Nat) :
    InBounds (l.readField s (xs.take (kind.arity s.minor)) x i) := by
  unfold readField
  cases hf : l.slots[i]? with
  | none => simp
  | some f =>
    rw [h.getElem?_eq hf]
    by_cases hsince : f.since ≤ s.minor
    · have hi : i < xs.length := Nat.lt_of_lt_of_le ((h.since_le_iff hf _).1 hsince) hxs.1
      rw [if_pos hsince, List.getElem?_eq_getElem hi]
      exact (hslots i f hf).inBounds s xs[i] x
    · simp [hsince, UInt32.not_le.1 hsince]

/-- Reading a field goes along with reading it from recast metadata. -/
theorem readField_of_recasting (h : l.Dated kind) (hslots : Slot.FollowAll l.slots field asOf)
    {s s' : Source} {fits : RecordKind → Nat → Nat → Prop} (hr : Recasting s s' fits) {xs ys : List Operand}
    (hxs : kind.Accepts s.minor xs.length) (hys : kind.Accepts s'.minor ys.length)
    (hfields : ∀ i x y, xs[i]? = some x → ys[i]? = some y →
      (field i).Recast s.program s'.program fits x y) (x : ρ) (i : Nat) (y : ρ)
    (hread : l.readField s (xs.take (kind.arity s.minor)) x i = .ok y) :
    l.readField s' (ys.take (kind.arity s'.minor)) (asOf s'.minor x) i = .ok (asOf s'.minor y) := by
  unfold readField at hread ⊢
  cases hf : l.slots[i]? with
  | none =>
    rw [hf] at hread
    cases hread
    rfl
  | some f =>
    have hcurrent : f.since ≤ s.minor := by
      rw [hr.minor, h.since_le_iff hf, ← h.length_eq]
      exact (List.getElem?_eq_some_iff.1 hf).1
    have hi : i < xs.length := Nat.lt_of_lt_of_le ((h.since_le_iff hf _).1 hcurrent) hxs.1
    rw [hf, h.getElem?_eq hf, if_pos hcurrent, List.getElem?_eq_getElem hi] at hread
    rw [h.getElem?_eq hf]
    by_cases hsince : f.since ≤ s'.minor
    · have hi' : i < ys.length := Nat.lt_of_lt_of_le ((h.since_le_iff hf _).1 hsince) hys.1
      rw [if_pos hsince, List.getElem?_eq_getElem hi']
      exact (hslots i f hf).carries hr
        (hfields i _ _ (List.getElem?_eq_getElem hi) (List.getElem?_eq_getElem hi')) hsince hread
    · have hold := UInt32.not_le.1 hsince
      simp only [if_neg hsince, if_pos hold]
      rw [(hslots i f hf).forgets hold hread]

/-- A layout follows the form of its records if its slots do, each the form of its field. -/
theorem follows (h : l.Dated kind) (hslots : Slot.FollowAll l.slots field asOf)
    (horder : ∀ i < kind.arity Version.current.minor, i ∈ l.order)
    (hblank : ∀ minor, asOf minor l.blank = l.blank) :
    Follows some l.read (.record kind field) asOf where
  inBounds s n := by
    rw [read, h.arity_eq]
    refine Source.inBounds_record.bind fun ops hops => .foldlM (fun x i _ => ?_) _
    obtain ⟨xs, -, hxs, rfl⟩ := Source.record_iff.1 hops
    exact inBounds_readField h hslots hxs x i
  sound s n z hz := by
    rw [read, h.arity_eq] at hz
    obtain ⟨ops, hops, hz⟩ := bind_eq_ok.1 hz
    obtain ⟨xs, htuple, hxs, rfl⟩ := Source.record_iff.1 hops
    refine Form.sound_record htuple hxs fun i op hi hop => ?_
    have hlen : i < kind.arity Version.current.minor := Nat.lt_of_lt_of_le hi (kind.arity_le_current _)
    obtain ⟨x, y, hread⟩ := exists_of_foldlM hz i (horder i hlen)
    have hf := List.getElem?_eq_getElem (h.length_eq ▸ hlen : i < l.slots.length)
    rw [readField, hf, h.getElem?_eq hf, if_pos ((h.since_le_iff hf _).2 hi), hop] at hread
    exact (hslots i _ hf).sound s op x y hread
  carries {s s' fits n n' z} hr hform hz := by
    rw [read, h.arity_eq] at hz ⊢
    obtain ⟨ops, hops, hz⟩ := bind_eq_ok.1 hz
    obtain ⟨xs, htuple, hxs, rfl⟩ := Source.record_iff.1 hops
    obtain ⟨xs', ys, htuple', hys, hfits, hfields⟩ := hform
    rw [htuple] at htuple'
    cases htuple'
    have hlen : xs.length = kind.arity Version.current.minor := by
      rw [hr.minor] at hxs
      exact RecordKind.accepts_current.1 hxs
    have hacc : kind.Accepts s'.minor ys.length := hr.accepts kind _ (hlen ▸ hfits)
    refine bind_eq_ok.2 ⟨_, Source.record_iff.2 ⟨ys, hys, hacc, rfl⟩, ?_⟩
    rw [← hblank s'.minor]
    exact foldlM_of_steps (asOf s'.minor)
      (fun x i y => readField_of_recasting h hslots hr hxs hacc hfields x i y) hz

end Layout

end ShaderModule
