import ShaderModule.Proofs.Precise.Marking

/-!
# Marks survive promotion

Slots are marked, then promoted, and then the marker calls are swept up. What is tagged in the end is
what computes the values that were stored to the marked slots, with promoted slots seen through.
-/

namespace ShaderModule

open Program

namespace Program

variable {p q : Program}

/-- A value of the program whose type is not `void`. -/
def Proper (p : Program) (v : Value) : Prop :=
  ∃ t q, valueType v p = .ok t q ∧ ∃ ty ∈ q.type? t, ty ≠ .void

theorem Proper.isLive {v : Value} (hv : p.Proper v) : p.isLive v := by
  obtain ⟨t, q, hrun, -⟩ := hv
  exact isLive_iff.2 ⟨t, q, hrun⟩

instance : DecidablePred p.Proper := fun v =>
  inferInstanceAs (Decidable (∃ t q, valueType v p = .ok t q ∧ ∃ ty ∈ q.type? t, ty ≠ .void))

instance : DecidablePred p.ScalarType := fun t =>
  decidable_of_iff (∃ ty ∈ p.type? t, ty.pointee? = none ∧ ty ≠ .void) Iff.rfl

end Program

namespace Precise

variable {p q r : Program} {f : Handle .function} {ms ns : List (Handle .inst)}

/-! ## Marking several slots -/

/-- `q` is `p` after some slots were marked. -/
structure MarkedAll (p q : Program) (f : Handle .function) (ms : List (Handle .inst)) : Prop where
  slots    : ∀ s, q.IsSlot f s ↔ p.IsSlot f s
  stores   : ∀ x ptr v, q.instKind? x = some (.store ptr v) ↔ p.instKind? x = some (.store ptr v)
  marks    : ∀ v, Marked q v ↔ Marked p v ∨ ∃ s ∈ ms, v = .inst s
  tags     : ∀ o, isTagged q o ↔ isTagged p o
  resolved : ∀ promoted v h, q.ResolvesTo f promoted v h ↔ p.ResolvesTo f promoted v h

theorem markedAll_nil (p : Program) (f : Handle .function) : MarkedAll p p f [] :=
  ⟨fun _ => Iff.rfl, fun _ _ _ => Iff.rfl, by simp, fun _ => Iff.rfl, fun _ _ _ => Iff.rfl⟩

theorem Marking.markedAll {s c : Handle .inst} {m : Handle .function} (hq : Marking p q f s c m)
    (hp : Markable p f) : MarkedAll p q f [s] where
  slots    := fun _ => hq.isSlot_iff
  stores   := fun _ _ _ => hq.store_iff
  marks    := fun v => by simpa using hq.marked_iff hp
  tags     := fun _ => hq.isTagged_iff
  resolved := fun _ _ _ => hq.resolvesTo_iff hp

theorem MarkedAll.append (hq : MarkedAll p q f ms) (hr : MarkedAll q r f ns) : MarkedAll p r f (ms ++ ns) where
  slots    := fun s => (hr.slots s).trans (hq.slots s)
  stores   := fun x ptr v => (hr.stores x ptr v).trans (hq.stores x ptr v)
  marks    := fun v => by simp [hr.marks, hq.marks, or_and_right, exists_or, or_assoc]
  tags     := fun o => (hr.tags o).trans (hq.tags o)
  resolved := fun promoted v h => (hr.resolved promoted v h).trans (hq.resolved promoted v h)

/-- Slots can be marked in any order. -/
theorem markAll_eq (hp : Markable p f) (hms : ∀ s ∈ ms, p.IsSlot f s) :
    ∃ calls q, ms.mapM (fun s => markPointer (.inst s)) p = .ok calls q ∧ Markable q f ∧
      MarkedAll p q f ms := by
  induction ms generalizing p with
  | nil => exact ⟨[], p, rfl, hp, markedAll_nil p f⟩
  | cons s ms ih =>
    obtain ⟨hs, hms⟩ := List.forall_mem_cons.1 hms
    obtain ⟨c, m, q, hrun, hq⟩ := markPointer_eq hp.consistent hp.names hs
    obtain ⟨calls, r, hruns, hr, hall⟩ :=
      ih (hq.markable hp hs) fun x hx => hq.isSlot_iff.2 (hms x hx)
    exact ⟨[c] :: calls, r, action_mapM_cons hrun hruns, hr, (hq.markedAll hp).append hall⟩

/-! ## The protocol -/

/-- A function of a program without markers: all operands are there and have a type other than `void`,
those of the function that are instructions come earlier in its body, and its slots are used nowhere
else, hold neither pointers nor `void`, and get values of their types only. -/
structure Regular (p : Program) (f : Handle .function) : Prop where
  unmarked : ∀ g x, p.function? g = some x → ¬ isMarkerName x.name
  operands : ∀ h v, p.uses v h → p.Proper v
  earlier  : p.UsesEarlier [] (p.body f)
  own      : ∀ s, p.IsSlot f s → ∀ h, p.uses (.inst s) h → h ∈ p.body f
  slots    : ∀ s t, (s, t) ∈ p.slots f → p.ScalarType t
  stores   : ∀ s t, (s, t) ∈ p.slots f → ∀ x v, p.instKind? x = some (.store (.inst s) v) → p.HasType v t

instance : Decidable (Regular p f) :=
  decidable_of_iff ((∀ g ∈ p.functions.live, ∀ x ∈ p.function? g, ¬ isMarkerName x.name) ∧
      (∀ h ∈ p.insts.live, ∀ v, p.uses v h → p.Proper v) ∧ p.UsesEarlier [] (p.body f) ∧
      (∀ h ∈ p.insts.live, ∀ o, p.uses (.inst o) h → p.IsSlot f o → h ∈ p.body f) ∧
      (∀ s ∈ p.slots f, p.ScalarType s.2) ∧
      ∀ s ∈ p.slots f, ∀ x ∈ p.insts.live, ∀ v ∈ (p.instKind? x).bind (storedThrough? (.inst s.1)),
        p.HasType v s.2) <| by
    constructor
    · rintro ⟨hunmarked, hoperands, hearlier, hown, hslots, hstores⟩
      refine ⟨?_, ?_, hearlier, ?_, fun s t hs => hslots (s, t) hs, ?_⟩
      · exact fun g x hx => hunmarked g (Slots.mem_live.2 (Option.isSome_of_eq_some hx)) x hx
      · exact fun h v huses => hoperands h (mem_live_of_uses huses) v huses
      · exact fun s hs h huses => hown h (mem_live_of_uses huses) s huses hs
      · intro s t hs x v hk
        refine hstores (s, t) hs x (Slots.mem_live.2 (hasInst_of_instKind? hk)) v ?_
        exact Option.mem_def.2 (Option.bind_eq_some_iff.2 ⟨_, hk, storedThrough?_eq_some.2 rfl⟩)
    · rintro ⟨hunmarked, hoperands, hearlier, hown, hslots, hstores⟩
      refine ⟨fun g _ x hx => hunmarked g x hx, fun h _ v huses => hoperands h v huses, hearlier,
        fun h _ o huses ho => hown o ho h huses, fun s hs => hslots s.1 s.2 hs, fun s hs x _ v hv => ?_⟩
      obtain ⟨k, hk, hstore⟩ := Option.bind_eq_some_iff.1 hv
      exact hstores s.1 s.2 hs x v (storedThrough?_eq_some.1 hstore ▸ hk)

namespace Regular

variable (hf : Regular p f)

include hf

theorem not_isMarker {m : Handle .function} : ¬ isMarker p m := by
  intro hm
  have hnames : NamesMarkers p := fun g x hx hname => absurd hname (hf.unmarked g x hx)
  obtain ⟨x, hx, hname⟩ := hnames.isMarker_iff.1 hm
  exact hf.unmarked m x hx hname

theorem not_marked {v : Value} : ¬ Marked p v := by
  rintro ⟨c, m, -, hm⟩
  exact hf.not_isMarker hm

theorem markable (hp : p.Consistent) : Markable p f where
  consistent := hp
  live       := fun h v huses => (hf.operands h v huses).isLive
  results    := by
    intro h o huses i hi
    obtain ⟨t, q, hrun, hty⟩ := hf.operands h _ huses
    simp only [valueType, hi, EStateM.Result.ok.injEq] at hrun
    obtain ⟨rfl, rfl⟩ := hrun
    exact hty
  earlier    := hf.earlier
  own        := hf.own
  slots      := hf.slots
  stores     := by
    rintro x s v hk ⟨hlisted, t, halloca⟩
    have hslot : (s, t) ∈ p.slots f := mem_slots.2 ⟨hlisted, halloca⟩
    obtain ⟨q, hrun⟩ := hf.stores s t hslot x v hk
    exact ⟨t, q, hrun, (hf.slots s t hslot).extend (grows_of_valueType hrun).toExtends⟩
  names      := fun g x hx hname => absurd hname (hf.unmarked g x hx)
  marks      := fun v hv => absurd hv hf.not_marked
  called     := fun h m hm => absurd hm hf.not_isMarker

end Regular

/-- Only what is stored to the marked slots is wanted. -/
theorem MarkedAll.wanted_iff (hq : MarkedAll p q f ms) (hf : Regular p f) (hms : ∀ s ∈ ms, p.IsSlot f s)
    {v : Value} :
    Wanted q f v ↔ ∃ s ∈ ms, ∃ x ∈ p.body f, p.instKind? x = some (.store (.inst s) v) := by
  have hmarked : ∀ {u}, Marked q u → ∃ s ∈ ms, u = .inst s :=
    fun hu => ((hq.marks _).1 hu).resolve_left hf.not_marked
  constructor
  · rintro (@⟨s, x, _, hs, hm, hstore⟩ | ⟨hv, hm⟩)
    · obtain ⟨s', hsm, heq⟩ := hmarked hm
      cases heq
      have hstore := (hq.stores _ _ _).1 hstore
      have huses : p.uses (.inst s) x := uses_address_of_store hstore
      exact ⟨s, hsm, x, hf.own s (hms s hsm) x huses, hstore⟩
    · obtain ⟨s, hsm, rfl⟩ := hmarked hm
      exact absurd ((hq.slots s).2 (hms s hsm)) (hv s rfl)
  · rintro ⟨s, hsm, x, -, hstore⟩
    exact .stored ((hq.slots s).2 (hms s hsm)) ((hq.marks _).2 (.inr ⟨s, hsm, rfl⟩)) ((hq.stores _ _ _).2 hstore)

/-- Marking slots, promoting the slots of the function and sweeping the marker calls up tags what computes
the values stored to the marked slots. -/
theorem tags_of_protocol (hp : p.Reachable) (hf : Regular p f) (hms : ∀ s ∈ ms, p.IsSlot f s) :
    ∃ calls marked n promoted k swept,
      ms.mapM (fun s => markPointer (.inst s)) p = .ok calls marked ∧
      promote f marked = .ok n promoted ∧ sweep promoted = .ok k swept ∧
      (∀ g x, swept.function? g = some x → ¬ isMarkerName x.name) ∧
      ∀ h, isTagged swept h ↔ isTagged p h ∧ swept.hasInst h ∨
        ∃ s ∈ ms, ∃ x ∈ p.body f, ∃ v, p.instKind? x = some (.store (.inst s) v) ∧
          p.ResolvesTo f (fun slot => p.IsSlot f slot ∧ ¬ promoted.hasInst slot) v h := by
  obtain ⟨calls, marked, hmark, hmarkable, hall⟩ := markAll_eq (hf.markable hp.consistent) hms
  have hprepared := hmarkable.prepared
  obtain ⟨n, promoted, hpromote, hsteps, hnone, hgone⟩ := promote_prepared hprepared
  obtain ⟨k, swept, hsweep, htags, hlive, hkept, hunmarked⟩ :=
    sweep_eq (prepared_promotions hprepared hsteps)
  refine ⟨calls, marked, n, promoted, k, swept, hmark, hpromote, hsweep, hunmarked, fun h => ?_⟩
  have hseen : marked.CanPromote f = fun slot => p.IsSlot f slot ∧ ¬ promoted.hasInst slot := by
    funext slot
    rw [hgone, hall.slots]
  -- What the calls ask for stays the same through all promotions, so it can be read off before the first one.
  have hsought : Wanted promoted f (.inst h) ↔ ∃ s ∈ ms, ∃ x ∈ p.body f, ∃ v,
      p.instKind? x = some (.store (.inst s) v) ∧
        p.ResolvesTo f (fun slot => p.IsSlot f slot ∧ ¬ promoted.hasInst slot) v h := by
    rw [← sought_iff hnone, sought_promotions hprepared hsteps, Sought]
    simp only [hseen, hall.wanted_iff hf hms, hall.resolved]
    constructor
    · rintro ⟨v, ⟨s, hs, x, hx, hk⟩, hv⟩
      exact ⟨s, hs, x, hx, v, hk, hv⟩
    · rintro ⟨s, hs, x, hx, v, hk, hv⟩
      exact ⟨v, ⟨s, hs, x, hx, hk⟩, hv⟩
  have hlive := hlive h
  have hkept := hkept h
  rw [htags, isTagged_promotions hsteps, hall.tags, ← hsought]
  tauto

/-- A function that stores a sum in a slot, what it loads from there in another one, and a product in the
first slot again. -/
def storing : Program :=
  ([.type .void, .type (.float 32), .type (.function ⟨1⟩ [⟨1⟩]), .addFunction "main" ⟨2⟩,
    .append ⟨0⟩ (.alloca ⟨1⟩), .append ⟨0⟩ (.alloca ⟨1⟩),
    .append ⟨0⟩ (.binary .fadd (.argument ⟨0⟩ 0) (.argument ⟨0⟩ 0)),
    .append ⟨0⟩ (.store (.inst ⟨0⟩) (.inst ⟨2⟩)), .append ⟨0⟩ (.load (.inst ⟨0⟩)),
    .append ⟨0⟩ (.store (.inst ⟨1⟩) (.inst ⟨4⟩)),
    .append ⟨0⟩ (.binary .fmul (.inst ⟨4⟩) (.inst ⟨4⟩)), .append ⟨0⟩ (.store (.inst ⟨0⟩) (.inst ⟨6⟩)),
    .append ⟨0⟩ (.load (.inst ⟨1⟩)), .append ⟨0⟩ (.ret (some (.inst ⟨8⟩))), .tagInst ⟨6⟩] :
    List ProgramOp).foldl ProgramOp.apply (.empty "storing")

theorem tags_of_protocol_storing :
    ∃ calls marked n promoted k swept,
      [Handle.mk 1].mapM (fun s => markPointer (.inst s)) storing = .ok calls marked ∧
      promote ⟨0⟩ marked = .ok n promoted ∧ sweep promoted = .ok k swept ∧
      (∀ g x, swept.function? g = some x → ¬ isMarkerName x.name) ∧
      ∀ h, isTagged swept h ↔ isTagged storing h ∧ swept.hasInst h ∨
        ∃ s ∈ [Handle.mk 1], ∃ x ∈ storing.body ⟨0⟩, ∃ v, storing.instKind? x = some (.store (.inst s) v) ∧
          storing.ResolvesTo ⟨0⟩ (fun slot => storing.IsSlot ⟨0⟩ slot ∧ ¬ promoted.hasInst slot) v h :=
  tags_of_protocol (reachable_foldl _ _) (by decide) (by decide)

end Precise

end ShaderModule
