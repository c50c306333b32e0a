import ShaderModule.Proofs.Program.Execution
import ShaderModule.Proofs.Program.WellFormed

/-!
# Promotion keeps the meaning

The run of a body and the run of the body with one slot promoted go along with each other. What the
promoted body has in the place of a load is the contents of the slot at that time.
-/

namespace ShaderModule

namespace Program

variable {p q : Program} {D : Type} {I : Interp D}

theorem runInsts_append (r : Run D) (hs hs' : List (Handle .inst)) :
    p.runInsts I r (hs ++ hs') = p.runInsts I (p.runInsts I r hs) hs' := List.foldl_append

theorem runInst_eq {h : Handle .inst} {k : InstKind} (hk : p.instKind? h = some k) (r : Run D) :
    p.runInst I r h = r.step I p.isAnnotator (r.eval I p) h k := by
  simp [runInst, hk]

/-- An annotation changes only what there is in place of its result. -/
theorem runInst_of_annotator {h : Handle .inst} {callee : Handle .function} {v : Value}
    (hk : p.instKind? h = some (.call callee [v])) (hc : p.isAnnotator callee) (r : Run D) :
    ∃ d, p.runInst I r h = r.setResult h (.other d) := by
  refine ⟨I.call r.trace callee [r.eval I p v], ?_⟩
  simp [runInst_eq hk, Run.step, hc]

/-- A run through annotations changes nothing else either. -/
theorem agrees_annotations {slot : Handle .inst} {P : Handle .inst → Prop} {cs : List (Handle .inst)}
    (hcs : ∀ c ∈ cs, ¬ P c ∧ ∃ callee v, p.instKind? c = some (.call callee [v]) ∧ p.isAnnotator callee)
    (r : Run D) : Run.Agrees slot P r (p.runInsts I r cs) := by
  induction cs generalizing r with
  | nil => exact ⟨rfl, fun _ _ => rfl, fun _ _ => rfl⟩
  | cons c cs ih =>
    obtain ⟨hc, callee, v, hk, hannotator⟩ := hcs c List.mem_cons_self
    obtain ⟨d, hd⟩ := runInst_of_annotator (I := I) hk hannotator r
    have hrest := ih (fun x hx => hcs x (List.mem_cons_of_mem _ hx)) (p.runInst I r c)
    have hfirst : Run.Agrees slot P r (p.runInst I r c) := hd ▸ .setResult_self hc _
    exact hfirst.trans hrest

/-- Operands that are usable after part of a body evaluate to the same as long as its results stay. -/
theorem Usable.eval_eq {slot : Handle .inst} {pre : List (Handle .inst)} {v : Value}
    (hv : Usable p q slot pre v) {r r' : Run D} (h : ∀ o ∈ pre, r.results o = r'.results o) :
    r.eval I q v = r'.eval I q v :=
  Run.eval_congr fun o ho => h o (hv.inst o ho).1

/-- After part of a body, the run of the promoted body knows all that the run of the body does, and
what the slot contains besides. -/
structure Tracks (p q : Program) (I : Interp D) (slot : Handle .inst) (type : Handle .type)
    (pre : List (Handle .inst)) (r r' : Run D) : Prop where
  agrees  : Run.Agrees slot (fun h => h < p.insts.next ∧ ¬ p.concerns slot h) r r'
  hides   : r.Hides slot
  loads   : ∀ l ∈ (p.traceOf slot type pre).loads, r.results l.1 = r'.eval I q l.2
  address : slot ∈ pre → r.results slot = .slot slot
  current : slot ∈ pre → r.cells slot = r'.eval I q (p.traceOf slot type pre).current

theorem traceOf_concat_of_unused {slot : Handle .inst} {type : Handle .type} {pre : List (Handle .inst)}
    {x : Handle .inst} (hx : ¬ p.uses (.inst slot) x) :
    p.traceOf slot type (pre ++ [x]) = p.traceOf slot type pre := by
  rw [traceOf, continueTrace_append]
  refine continueTrace_of_unused fun y hy => ?_
  rwa [List.mem_singleton.1 hy]

/-- The loads in a trace are among the instructions that it goes over. -/
theorem mem_of_mem_loads {slot : Handle .inst} {type : Handle .type} {pre : List (Handle .inst)}
    {l : Handle .inst × Value} (hl : l ∈ (p.traceOf slot type pre).loads) : l.1 ∈ pre := by
  have hmem : l.1 ∈ (p.traceOf slot type pre).loads.map Prod.fst := List.mem_map_of_mem hl
  rw [loads_traceOf] at hmem
  exact (List.mem_filter.1 hmem).1

section Steps

variable {f : Handle .function} {slot : Handle .inst} {type : Handle .type}
  {annotations : List (Handle .inst × Handle .function)} {calls : Handle .inst → List (Handle .inst)}
  {pre post : List (Handle .inst)} {x : Handle .inst} {r r' : Run D}

namespace Ready

variable (hr : p.Ready f slot type annotations) (hbody : p.body f = pre ++ x :: post)

include hr hbody

theorem not_mem_pre : x ∉ pre := by
  have hnodup := hr.nodup
  rw [hbody] at hnodup
  intro hx
  exact (List.disjoint_of_nodup_append hnodup) hx List.mem_cons_self

theorem ne_of_mem_pre {o : Handle .inst} (ho : o ∈ pre) : o ≠ x :=
  fun heq => hr.not_mem_pre hbody (heq ▸ ho)

theorem lt_next_of_mem_pre {o : Handle .inst} (ho : o ∈ pre) : o < p.insts.next := by
  obtain ⟨i, hi, -⟩ := inst?_of_mem_body hr.consistent (g := f) (h := o) (by simp [hbody, ho])
  exact Slots.lt_next_of_get? hi

/-- Nothing is done with a slot before it is allocated. -/
theorem unused_before (hx : x = slot) : ∀ y ∈ pre, ¬ p.uses (.inst slot) y := by
  intro y hy huses
  obtain ⟨pre₁, pre₂, rfl⟩ := List.append_of_mem hy
  have hbody' : p.body f = pre₁ ++ y :: (pre₂ ++ x :: post) := by simpa using hbody
  have hmem := hr.mem_pre hbody' huses
  exact hr.not_mem_pre hbody (hx ▸ List.mem_append_left _ hmem)

end Ready

namespace Tracks

variable (ht : Tracks p q I slot type pre r r') (hr : p.Ready f slot type annotations)
  (hbody : p.body f = pre ++ x :: post)

include ht hr hbody

/-- A load gives what the slot contains. -/
theorem load (hk : p.instKind? x = some (.load (.inst slot))) :
    Tracks p q I slot type (pre ++ [x]) (p.runInst I r x) r' := by
  have huses : p.uses (.inst slot) x := uses_of_load hk
  have hslot : slot ∈ pre := hr.mem_pre hbody huses
  have hrun : p.runInst I r x = r.setResult x (r.cells slot) := by
    simp [runInst_eq hk, Run.step, Run.eval, ht.address hslot, Run.read]
  rw [hrun]
  constructor
  case agrees =>
    have hx : ¬ (x < p.insts.next ∧ ¬ p.concerns slot x) := by simp [concerns, huses]
    exact (Run.Agrees.setResult_self hx _).symm.trans ht.agrees
  case hides => exact ht.hides.setResult fun h => absurd h (ht.hides.cells slot)
  case loads =>
    intro l hl
    rw [traceOf_concat, loads_step, if_pos hk] at hl
    rcases List.mem_append.1 hl with hl | hl
    · have hne : l.1 ≠ x := hr.ne_of_mem_pre hbody (mem_of_mem_loads hl)
      simpa [Run.setResult, hne] using ht.loads l hl
    · rw [List.mem_singleton.1 hl]
      simpa [Run.setResult] using ht.current hslot
  case address =>
    intro _
    have hne : slot ≠ x := hr.ne_of_mem_pre hbody hslot
    simpa [Run.setResult, hne] using ht.address hslot
  case current =>
    intro _
    rw [traceOf_concat, hk]
    simpa [SlotTrace.step, Run.setResult] using ht.current hslot

/-- Annotations of the slot are not noticed. -/
theorem annotate {callee : Handle .function} (hk : p.instKind? x = some (.call callee [.inst slot]))
    (hc : p.isAnnotator callee) :
    Tracks p q I slot type (pre ++ [x]) (p.runInst I r x) r' := by
  have huses : p.uses (.inst slot) x := uses_argument_of_call hk
  have hslot : slot ∈ pre := hr.mem_pre hbody huses
  have htrace : p.traceOf slot type (pre ++ [x]) = p.traceOf slot type pre := by
    rw [traceOf_concat, hk]
    rfl
  obtain ⟨d, hrun⟩ := runInst_of_annotator (I := I) hk hc r
  rw [hrun]
  constructor
  case agrees =>
    have hx : ¬ (x < p.insts.next ∧ ¬ p.concerns slot x) := by simp [concerns, huses]
    exact (Run.Agrees.setResult_self hx _).symm.trans ht.agrees
  case hides => exact ht.hides.setResult (by simp)
  case loads =>
    intro l hl
    rw [htrace] at hl
    have hne : l.1 ≠ x := hr.ne_of_mem_pre hbody (mem_of_mem_loads hl)
    simpa [Run.setResult, hne] using ht.loads l hl
  case address =>
    intro _
    have hne : slot ≠ x := hr.ne_of_mem_pre hbody hslot
    simpa [Run.setResult, hne] using ht.address hslot
  case current =>
    intro _
    rw [htrace]
    exact ht.current hslot

variable (hq : p.Promoted q f slot type annotations calls)

include hq

/-- Before the slot is allocated there is nothing to know about it. -/
theorem alloca (hx : x = slot) : Tracks p q I slot type (pre ++ [x]) (p.runInst I r x) r' := by
  have hunused := hr.unused_before hbody hx
  subst hx
  have htrace : p.traceOf x type (pre ++ [x]) = ⟨.constant (p.undefined type), [], []⟩ := by
    rw [traceOf_concat, hr.alloca, traceOf, continueTrace_of_unused hunused]
    rfl
  rw [runInst_eq hr.alloca]
  constructor
  case agrees =>
    have hx : ¬ (x < p.insts.next ∧ ¬ p.concerns x x) := by simp [concerns]
    exact ((Run.Agrees.setResult_self hx _).trans (.setCell_self _)).symm.trans ht.agrees
  case hides => exact ht.hides.step (by rintro ptr v ⟨⟩)
  case loads => simp [htrace]
  case address => simp [Run.step, Run.setCell, Run.setResult]
  case current => simp [htrace, Run.step, Run.setCell, Run.eval, hq.undefined]

variable (hw : p.WellFormed f)

include hw

/-- Operands evaluate to the same in both runs. -/
theorem eval_resolve {v : Value} (huses : p.uses v x) (hne : v ≠ .inst slot) :
    r.eval I p v = r'.eval I q ((p.traceOf slot type pre).resolve v) := by
  have husable := hq.usable_resolve hr hw hbody huses hne
  rw [SlotTrace.resolve_eq] at husable ⊢
  rcases forward_cases (p.traceOf slot type pre).loads v with ⟨l, hl, rfl, heq⟩ | ⟨-, heq⟩
  · rw [heq]
    exact ht.loads l hl
  · rw [heq] at husable ⊢
    cases v with
    | inst o =>
      obtain ⟨ho, hc, -⟩ := husable.inst o rfl
      exact ht.agrees.results o ⟨hr.lt_next_of_mem_pre hbody ho, hc⟩
    | constant c =>
      obtain ⟨k, hk⟩ := Option.isSome_iff_exists.1 (hw.live x (by simp [hbody]) _ huses)
      simp [Run.eval, hk, hq.spliced.toExtends.constant? hk]
    | _ => rfl

omit ht in
/-- What is known already does not change any more. -/
theorem eval_known {s' : Run D} (h : ∀ o ∈ pre, r'.results o = s'.results o) :
    (∀ l ∈ (p.traceOf slot type pre).loads, r'.eval I q l.2 = s'.eval I q l.2) ∧
      r'.eval I q (p.traceOf slot type pre).current = s'.eval I q (p.traceOf slot type pre).current := by
  have hknown := hr.known hbody
  constructor
  · intro l hl
    exact (hq.usable_of_known hw (hknown.loads l hl)).eval_eq h
  · exact (hq.usable_of_known hw hknown.current).eval_eq h

/-- A store gives the slot its value; of that only annotations are left. -/
theorem store {v : Value} (hk : p.instKind? x = some (.store (.inst slot) v))
    (hcalls : ∀ c ∈ calls x, p.insts.next.index ≤ c.index ∧
      ∃ callee w, q.instKind? c = some (.call callee [w]) ∧ q.isAnnotator callee) :
    Tracks p q I slot type (pre ++ [x]) (p.runInst I r x) (q.runInsts I r' (calls x)) := by
  have huses : p.uses v x := uses_value_of_store hk
  have hslot : slot ∈ pre := hr.mem_pre hbody (uses_address_of_store hk)
  have hne : v ≠ .inst slot := hr.stored_ne_slot hk
  have hrun : p.runInst I r x = r.setCell slot (r.eval I p v) := by
    have haddress : r.eval I p (.inst slot) = .slot slot := ht.address hslot
    simp [runInst_eq hk, Run.step, haddress, Run.write]
  -- The calls in its place change no result of an older instruction.
  have hquiet : Run.Agrees slot (· < p.insts.next) r' (q.runInsts I r' (calls x)) := by
    refine agrees_annotations ?_ r'
    intro c hc
    exact ⟨Nat.not_lt_of_le (hcalls c hc).1, (hcalls c hc).2⟩
  obtain ⟨hloads, -⟩ := eval_known (I := I) hr hbody hq hw
    (fun o ho => hquiet.results o (hr.lt_next_of_mem_pre hbody ho))
  have hvalue : r.eval I p v =
      (q.runInsts I r' (calls x)).eval I q ((p.traceOf slot type pre).resolve v) := by
    rw [ht.eval_resolve hr hbody hq hw huses hne]
    refine (hq.usable_resolve hr hw hbody huses hne).eval_eq ?_
    exact fun o ho => hquiet.results o (hr.lt_next_of_mem_pre hbody ho)
  have htrace : (p.traceOf slot type (pre ++ [x])).loads = (p.traceOf slot type pre).loads := by
    rw [traceOf_concat, loads_step, hk]
    simp
  rw [hrun]
  constructor
  case agrees => exact (Run.Agrees.setCell_self _).symm.trans (ht.agrees.trans (hquiet.mono fun _ h => h.1))
  case hides => exact ht.hides.setCell fun h => hne (ht.hides.eval h)
  case loads =>
    intro l hl
    rw [htrace] at hl
    exact (ht.loads l hl).trans (hloads l hl)
  case address => exact fun _ => ht.address hslot
  case current =>
    intro _
    rw [traceOf_concat, hk]
    simpa [SlotTrace.step, Run.setCell] using hvalue

/-- What has nothing to do with the slot does the same as before. -/
theorem kept {k : InstKind} (hk : p.instKind? x = some k) (hc : ¬ p.concerns slot x)
    (hannotator : ∀ g, q.isAnnotator g = p.isAnnotator g) :
    Tracks p q I slot type (pre ++ [x]) (p.runInst I r x) (q.runInst I r' x) := by
  have hx : x ≠ slot := by
    rintro rfl
    simp [concerns] at hc
  have hunused : ¬ p.uses (.inst slot) x := by
    intro huses
    simp [concerns, huses] at hc
  have huses : ∀ v ∈ k.operands, p.uses v x ∧ v ≠ .inst slot := by
    intro v hv
    have huses : p.uses v x := uses_iff.2 ⟨k, hk, hv⟩
    exact ⟨huses, fun heq => hunused (heq ▸ huses)⟩
  -- Its operands have the values that they had, so it takes the same step.
  have heval : ∀ v ∈ k.operands, r.eval I p v =
      r'.eval I q ((p.traceOf slot type (p.body f)).resolve v) := by
    intro v hv
    rw [ht.eval_resolve hr hbody hq hw (huses v hv).1 (huses v hv).2, hr.resolve_prefix hbody]
    rintro o rfl
    exact hr.mem_pre hbody (huses _ hv).1
  have hrun' : q.runInst I r' x = r'.step I p.isAnnotator (r.eval I p) x k := by
    rw [runInst_eq (hq.instKind?_of_not_concerns hk hc), Run.step_mapOperands]
    refine Run.step_congr ?_ fun callee _ _ => hannotator callee
    exact fun v hv => (heval v hv).symm
  have haddress : ∀ v ∈ k.operands, r.eval I p v ≠ .slot slot :=
    fun v hv h => (huses v hv).2 (ht.hides.eval h)
  have hpre : ∀ o ∈ pre, r'.results o = (q.runInst I r' x).results o := by
    intro o ho
    rw [hrun', Run.results_step_of_ne (hr.ne_of_mem_pre hbody ho)]
  obtain ⟨hloads, hcurrent⟩ := eval_known (I := I) hr hbody hq hw hpre
  have hmem : slot ∈ pre ++ [x] → slot ∈ pre := by
    intro h
    simpa [Ne.symm hx] using h
  rw [runInst_eq hk]
  constructor
  case agrees =>
    rw [hrun']
    exact ht.agrees.step haddress
  case hides =>
    refine ht.hides.step ?_
    rintro ptr v rfl
    exact haddress v (by simp [InstKind.operands])
  case loads =>
    intro l hl
    rw [traceOf_concat_of_unused hunused] at hl
    rw [Run.results_step_of_ne (hr.ne_of_mem_pre hbody (mem_of_mem_loads hl))]
    exact (ht.loads l hl).trans (hloads l hl)
  case address =>
    intro h
    rw [Run.results_step_of_ne (Ne.symm hx)]
    exact ht.address (hmem h)
  case current =>
    intro h
    rw [Run.cells_step_of_ne (Ne.symm hx) haddress, traceOf_concat_of_unused hunused]
    exact (ht.current (hmem h)).trans hcurrent

end Tracks

/-- The new instructions are annotations. -/
theorem Promoted.annotates (hq : p.Promoted q f slot type annotations calls)
    (hr : p.Ready f slot type annotations) (hx : x ∈ p.body f) (hc : p.concerns slot x) :
    ∀ c ∈ calls x, p.insts.next.index ≤ c.index ∧
      ∃ callee w, q.instKind? c = some (.call callee [w]) ∧ q.isAnnotator callee := by
  intro c hcall
  obtain ⟨v, a, -, ha, hle, t, -, hinst⟩ := hq.exists_call hcall
  have hne : q.body f ≠ [] := List.ne_nil_of_mem (hq.mem_body.2 (.inr ⟨x, hx, hc, hcall⟩))
  refine ⟨hle, a.2, v, by simp [instKind?, hinst, annotating], ?_⟩
  rw [hq.isAnnotator_eq hr hne]
  exact ((mem_annotations hr.consistent hr.promotable).1 ha).2

/-- The runs go along with each other through each instruction. -/
theorem Tracks.next (ht : Tracks p q I slot type pre r r') (hr : p.Ready f slot type annotations)
    (hbody : p.body f = pre ++ x :: post) (hq : p.Promoted q f slot type annotations calls)
    (hw : p.WellFormed f) :
    Tracks p q I slot type (pre ++ [x]) (p.runInst I r x)
      (q.runInsts I r' (if p.concerns slot x then calls x else [x])) := by
  have hx : x ∈ p.body f := by simp [hbody]
  by_cases hc : p.concerns slot x
  · rw [if_pos hc]
    have hnone : (∀ v, p.instKind? x ≠ some (.store (.inst slot) v)) → q.runInsts I r' (calls x) = r' := by
      intro hstore
      rw [hq.others x fun h => (hr.mem_stores.1 h).elim hstore]
      rfl
    rcases hr.concerns_iff.1 hc with heq | hload | hnote | hstore
    · rw [hnone (by rw [heq, hr.alloca]; simp)]
      exact ht.alloca hr hbody hq heq
    · have hk := hr.mem_loads.1 hload
      rw [hnone (by rw [hk]; simp)]
      exact ht.load hr hbody hk
    · obtain ⟨⟨y, callee⟩, hy, rfl⟩ := List.mem_map.1 hnote
      obtain ⟨hk, hannotator⟩ := (mem_annotations hr.consistent hr.promotable).1 hy
      rw [hnone (by rw [hk]; simp)]
      exact ht.annotate hr hbody hk hannotator
    · obtain ⟨v, hk⟩ := hr.mem_stores.1 hstore
      exact ht.store hr hbody hq hw hk (hq.annotates hr hx hc)
  · rw [if_neg hc]
    obtain ⟨i, hi, -⟩ := inst?_of_mem_body hr.consistent hx
    have hk : p.instKind? x = some i.kind := by simp [instKind?, hi]
    have hne : q.body f ≠ [] := List.ne_nil_of_mem (hq.mem_body_kept hx hc)
    exact ht.kept hr hbody hq hw hk hc (hq.isAnnotator_eq hr hne)

theorem tracks_initial : Tracks p q I slot type [] (.initial I) (.initial I) where
  agrees  := ⟨rfl, fun _ _ => rfl, fun _ _ => rfl⟩
  hides   := ⟨by rintro x ⟨⟩, by rintro s ⟨⟩⟩
  loads   := by
    rintro l ⟨⟩
  address := by
    rintro ⟨⟩
  current := by
    rintro ⟨⟩

end Steps

/-- The runs go along with each other through a whole body. -/
theorem Tracks.run {f : Handle .function} {slot : Handle .inst} {type : Handle .type}
    {annotations : List (Handle .inst × Handle .function)} {calls : Handle .inst → List (Handle .inst)}
    (hr : p.Ready f slot type annotations) (hq : p.Promoted q f slot type annotations calls)
    (hw : p.WellFormed f) : ∀ (post pre : List (Handle .inst)) {r r' : Run D},
      p.body f = pre ++ post → Tracks p q I slot type pre r r' →
        Tracks p q I slot type (p.body f) (p.runInsts I r post)
          (q.runInsts I r' (post.flatMap fun x => if p.concerns slot x then calls x else [x]))
  | [], pre, r, r', hbody, ht => by
    rw [hbody, List.append_nil]
    exact ht
  | x :: post, pre, r, r', hbody, ht => by
    rw [List.flatMap_cons, runInsts_append]
    exact run hr hq hw post (pre ++ [x]) (by simpa using hbody) (ht.next hr hbody hq hw)

/-- Promoting a slot cannot be seen in the trace of a run. -/
theorem Promoted.traceOfRun_eq {f : Handle .function} {slot : Handle .inst} {type : Handle .type}
    {annotations : List (Handle .inst × Handle .function)} {calls : Handle .inst → List (Handle .inst)}
    (hq : p.Promoted q f slot type annotations calls) (hr : p.Ready f slot type annotations)
    (hw : p.WellFormed f) : q.traceOfRun I f = p.traceOfRun I f := by
  have hrun := Tracks.run (I := I) hr hq hw (p.body f) [] rfl tracks_initial
  rw [traceOfRun, traceOfRun, hq.spliced.body]
  exact hrun.agrees.trace.symm

end Program

end ShaderModule
