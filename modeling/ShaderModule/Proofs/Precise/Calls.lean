import Mathlib.Data.List.Sort
import ShaderModule.Proofs.Precise.Marking

/-!
# Marking pointers: `mark_precise_attribute_on_ptr_with_function_call`

A pointer that an instruction computes is marked by one call right after the instruction, an argument
by one call that opens its function, and a global by calls that open the functions that store through
it. In a program without markers the marker and its calls are new, and nothing else changes.
-/

namespace ShaderModule

namespace Program

variable {p q : Program}

/-- A value of the program that is a pointer. -/
def IsPointer (p : Program) (v : Value) : Prop := ∃ t q, valueType v p = .ok t q ∧ (q.pointee? t).isSome

instance : DecidablePred p.IsPointer := fun v =>
  inferInstanceAs (Decidable (∃ t q, valueType v p = .ok t q ∧ (q.pointee? t).isSome))

/-- A value is there, and its type is one that the program has. -/
def HasKnownType (p : Program) (v : Value) : Prop := ∃ t q, valueType v p = .ok t q ∧ (q.type? t).isSome

instance : DecidablePred p.HasKnownType := fun v =>
  inferInstanceAs (Decidable (∃ t q, valueType v p = .ok t q ∧ (q.type? t).isSome))

/-- Whether a value is a pointer stays so. -/
theorem HasKnownType.extend {v : Value} (hv : p.HasKnownType v) (hext : p.Extends q) (hglobals : q.globals = p.globals)
    (hinst : ∀ o i, v = .inst o → p.inst? o = some i → ∃ j, q.inst? o = some j ∧ j.type = i.type)
    (hfunction : ∀ g x, p.function? g = some x → ∃ y, q.function? g = some y ∧ y.type = x.type) :
    ∃ t r, valueType v q = .ok t r ∧ ((r.pointee? t).isSome ↔ p.IsPointer v) := by
  obtain ⟨t, u, hrun, hty⟩ := hv
  obtain ⟨ty, hty⟩ := Option.isSome_iff_exists.1 hty
  have hglobal : ∀ g x, v = .global g → p.global? g = some x → q.global? g = some x := by
    intro g x _ hg
    rwa [global?, hglobals]
  obtain ⟨t', r, ty', hrun', hty', hsame, -⟩ := valueType_extend hrun hty hext hinst hfunction hglobal
  refine ⟨t', r, hrun', ?_⟩
  rw [pointee?, hty', Option.bind_some, hsame]
  constructor
  · intro hpointee
    exact ⟨t, u, hrun, by rwa [pointee?, hty, Option.bind_some]⟩
  · rintro ⟨t'', u', hrun'', hpointee⟩
    cases hrun.symm.trans hrun''
    rwa [pointee?, hty, Option.bind_some] at hpointee

theorem IsPointer.hasKnownType {v : Value} (hv : p.IsPointer v) : p.HasKnownType v := by
  obtain ⟨t, u, hrun, hpointee⟩ := hv
  obtain ⟨pointee, hpointee⟩ := Option.isSome_iff_exists.1 hpointee
  obtain ⟨ty, hty, -⟩ := Option.bind_eq_some_iff.1 hpointee
  exact ⟨t, u, hrun, Option.isSome_of_eq_some hty⟩

theorem IsPointer.extend {v : Value} (hv : p.IsPointer v) (hext : p.Extends q) (hglobals : q.globals = p.globals)
    (hinst : ∀ o i, v = .inst o → p.inst? o = some i → ∃ j, q.inst? o = some j ∧ j.type = i.type)
    (hfunction : ∀ g x, p.function? g = some x → ∃ y, q.function? g = some y ∧ y.type = x.type) :
    q.IsPointer v := by
  obtain ⟨t, r, hrun, hpointer⟩ := hv.hasKnownType.extend hext hglobals hinst hfunction
  exact ⟨t, r, hrun, hpointer.2 hv⟩

theorem IsPointer.hasFunction {f : Handle .function} {index : UInt32} (h : p.IsPointer (.argument f index)) :
    p.hasFunction f := by
  obtain ⟨t, u, hrun, -⟩ := h
  cases valueType_eq_ok_iff.1 hrun with
  | argument hf => exact Option.isSome_of_eq_some hf

/-! ## The functions that store through a pointer -/

/-- The functions of a program with a store through a pointer, in their order. -/
def storers (p : Program) (ptr : Value) : List (Handle .function) :=
  p.functions.order.filter fun f => (p.body f).any (Precise.storesThrough p ptr)

theorem storesThrough_iff {ptr : Value} {x : Handle .inst} :
    Precise.storesThrough p ptr x ↔ ∃ v, p.instKind? x = some (.store ptr v) := by
  unfold Precise.storesThrough
  split
  · next target v hk => simp [hk]
  · next hk =>
    refine iff_of_false Bool.false_ne_true ?_
    rintro ⟨v, hv⟩
    exact hk ptr v hv

section

variable (hp : p.functions.InOrder) {ptr : Value}

include hp

theorem mem_storers {f : Handle .function} :
    f ∈ p.storers ptr ↔ ∃ x ∈ p.body f, ∃ v, p.instKind? x = some (.store ptr v) := by
  simp only [storers, List.mem_filter, List.any_eq_true, storesThrough_iff, and_iff_right_iff_imp]
  rintro ⟨x, hx, -⟩
  refine hp.mem_iff.2 (Option.isSome_iff_ne_none.2 fun hf => ?_)
  simp [body, function?, hf] at hx

theorem nodup_storers (ptr : Value) : (p.storers ptr).Nodup := hp.nodup.filter _

/-- Where the bodies are the same and their instructions do the same, the same functions store. -/
theorem storers_congr (hq : q.functions.InOrder) (hbody : ∀ g, q.body g = p.body g)
    (hkind : ∀ h, q.instKind? h = p.instKind? h) (ptr : Value) : q.storers ptr = p.storers ptr := by
  refine List.Pairwise.eq_of_mem_iff (r := (· < ·)) (hq.sorted.filter _) (hp.sorted.filter _) fun g => ?_
  exact (mem_storers hq).trans (by simp only [hbody, hkind, mem_storers hp])

end

end Program

/-- Of runs of equal elements, one for each member of a list, one element is left for each run. -/
theorem eraseDups_flatMap_map_const {α β : Type} [DecidableEq α] (xs : α → List β) :
    ∀ {fs : List α}, fs.Nodup →
      (fs.flatMap fun f => (xs f).map fun _ => f).eraseDups = fs.filter fun f => !(xs f).isEmpty
  | [], _ => rfl
  | f :: fs, hn => by
    obtain ⟨hf, hn⟩ := List.nodup_cons.1 hn
    have ih := eraseDups_flatMap_map_const xs hn
    rw [List.flatMap_cons]
    cases hxs : xs f with
    | nil => simpa [hxs] using ih
    | cons x rest =>
      have hown : (rest.map fun _ => f).filter (fun g => !g == f) = [] := by simp
      have hother : (fs.flatMap fun g => (xs g).map fun _ => g).filter (fun g => !g == f) =
          fs.flatMap fun g => (xs g).map fun _ => g := by
        rw [List.filter_eq_self]
        intro g hg
        obtain ⟨g', hg', hmem⟩ := List.mem_flatMap.1 hg
        obtain ⟨-, -, rfl⟩ := List.mem_map.1 hmem
        have hne : g' ≠ f := fun heq => hf (heq ▸ hg')
        simpa using hne
      rw [List.map_cons, List.cons_append, List.eraseDups_cons, List.filter_append, hown, hother,
        List.nil_append, ih]
      simp [hxs]

namespace Precise

open Program

variable {p q r : Program} {f m : Handle .function} {ptr : Value} {calls : List (Handle .inst)}

/-- The functions in which a global is marked are those that store through it, in order. -/
theorem storingFunctions_eq (hp : p.Consistent) (ptr : Value) : storingFunctions p ptr = p.storers ptr := by
  have husers : (p.users ptr).filter (storesThrough p ptr) = p.code.filter (storesThrough p ptr) := by
    rw [users, List.filter_filter]
    refine List.filter_congr fun x _ => Bool.and_eq_left_iff_imp.2 fun hx => ?_
    obtain ⟨v, hk⟩ := storesThrough_iff.1 hx
    exact uses_address_of_store hk
  have hparents : (p.code.filter (storesThrough p ptr)).filterMap (fun h => (p.inst? h).map Inst.parent) =
      p.functions.order.flatMap fun g => ((p.body g).filter (storesThrough p ptr)).map fun _ => g := by
    rw [code, List.filter_flatMap, List.filterMap_flatMap]
    refine List.flatMap_congr fun g _ => ?_
    rw [← List.filterMap_eq_map]
    refine List.filterMap_congr fun x hx => ?_
    obtain ⟨i, hi, hparent⟩ := inst?_of_mem_body hp (List.mem_filter.1 hx).1
    rw [hi, Option.map_some, hparent]
    rfl
  rw [storingFunctions, husers, hparents, eraseDups_flatMap_map_const _ hp.order.nodup, storers]
  refine List.filter_congr fun g _ => ?_
  rw [Bool.eq_iff_iff]
  simp

/-! ## Programs without markers -/

/-- A program in which all operands are there and no function is named like a marker. -/
structure Pristine (p : Program) : Prop where
  names : ∀ g x, p.function? g = some x → ¬ isMarkerName x.name
  live  : ∀ h v, p.uses v h → p.isLive v

instance : Decidable (Pristine p) :=
  decidable_of_iff ((∀ g ∈ p.functions.live, ∀ x ∈ p.function? g, ¬ isMarkerName x.name) ∧
      ∀ h ∈ p.insts.live, ∀ v, p.uses v h → p.isLive v) <| by
    constructor
    · rintro ⟨hnames, hlive⟩
      refine ⟨fun g x hx => hnames g (Slots.mem_live.2 (Option.isSome_of_eq_some hx)) x hx, ?_⟩
      exact fun h v huses => hlive h (mem_live_of_uses huses) v huses
    · rintro ⟨hnames, hlive⟩
      exact ⟨fun g _ x hx => hnames g x hx, fun h _ v huses => hlive h v huses⟩

theorem Pristine.namesMarkers (hp : Pristine p) : NamesMarkers p :=
  fun g x hx hname => absurd hname (hp.names g x hx)

/-! ## New calls -/

/-- `q` is `p` with the marker `m`, which is new, and new calls of it on `ptr`. -/
structure Called (p q : Program) (m : Handle .function) (ptr : Value) (calls : List (Handle .inst)) :
    Prop where
  steps    : p.Steps q
  globals  : q.globals = p.globals
  marker   : ∃ x, q.function? m = some x ∧ isMarkerName x.name ∧ MarkerShape q x
  new      : p.function? m = none
  function : ∀ g, g ≠ m →
    (q.function? g).map (fun x => { x with body := x.body.filter (· ∉ calls) }) = p.function? g
  nodup    : calls.Nodup
  fresh    : ∀ c ∈ calls, p.inst? c = none
  call     : ∀ c ∈ calls, q.instKind? c = some (.call m [ptr])
  inst     : ∀ h ∉ calls, q.inst? h = p.inst? h

/-- A marker that a program without markers comes to have is new. -/
theorem Pristine.new (hp : Pristine p)
    (hmarker : ∃ x, q.function? m = some x ∧ isMarkerName x.name ∧ MarkerShape q x)
    (hkept : ∀ x, p.function? m = some x → ∃ y, q.function? m = some y ∧ y.name = x.name) :
    p.function? m = none := by
  rw [Option.eq_none_iff_forall_ne_some]
  intro x hx
  obtain ⟨y, hy, hname⟩ := hkept x hx
  obtain ⟨y', hy', hname', -⟩ := hmarker
  cases hy.symm.trans hy'
  exact hp.names m x hx (hname ▸ hname')

/-- A marker that is declared has no calls yet. -/
theorem Declared.called (hq : Declared p q m) (hp : Pristine p) (ptr : Value) : Called p q m ptr [] where
  steps    := hq.steps
  globals  := hq.globals
  marker   := hq.marker
  new      := hp.new hq.marker fun x hx => ⟨x, hq.kept m x hx, rfl⟩
  function := by
    intro g hg
    cases hx : p.function? g with
    | none => rw [hq.others g hx hg, Option.map_none]
    | some x => simp [hq.kept g x hx]
  nodup    := .nil
  fresh    := by simp
  call     := by simp
  inst     := fun h _ => by rw [inst?, hq.insts, inst?]

/-- A pointer that an instruction computes has one call. -/
theorem Marking.called {s c : Handle .inst} (hq : Marking p q f s c m) (hp : p.Consistent) (hpristine : Pristine p) :
    Called p q m (.inst s) [c] where
  steps    := hq.steps
  globals  := hq.globals
  marker   := hq.marker
  new      := hpristine.new hq.marker fun x hx => ⟨_, hq.function m x hx, rfl⟩
  function := by
    intro g hg
    cases hx : p.function? g with
    | none => rw [hq.others g hx hg, Option.map_none]
    | some x =>
      have hc : ∀ y ∈ x.body, y ≠ c := by
        intro y hy
        obtain ⟨i, hi, -⟩ := hp.listed g x hx y hy
        exact hq.ne_call_of_hasInst (Option.isSome_of_eq_some hi)
      have hbody : (x.body.flatMap fun y => if y = s then [y, c] else [y]).filter (· ∉ [c]) = x.body := by
        rw [List.filter_flatMap]
        have hone : ∀ y ∈ x.body, (if y = s then [y, c] else [y]).filter (· ∉ [c]) = [y] := by
          intro y hy
          have hyc := hc y hy
          split <;> simp [hyc]
        rw [List.flatMap_congr hone]
        simp
      rw [hq.function g x hx, Option.map_some, hbody]
  nodup    := List.nodup_singleton c
  fresh    := fun x hx => List.mem_singleton.1 hx ▸ hq.fresh
  call     := fun x hx => List.mem_singleton.1 hx ▸ hq.instKind?_call
  inst     := fun x hx => hq.inst x fun heq => hx (List.mem_singleton.2 heq)

namespace Called

variable (hq : Called p q m ptr calls)

include hq

theorem perm {calls' : List (Handle .inst)} (h : calls.Perm calls') : Called p q m ptr calls' where
  steps    := hq.steps
  globals  := hq.globals
  marker   := hq.marker
  new      := hq.new
  function := by simpa only [h.mem_iff] using hq.function
  nodup    := h.nodup hq.nodup
  fresh    := fun c hc => hq.fresh c (h.mem_iff.2 hc)
  call     := fun c hc => hq.call c (h.mem_iff.2 hc)
  inst     := fun x hx => hq.inst x (mt h.mem_iff.1 hx)

omit hq in
/-- A body is the same without the calls, whether or not the latest of them is put in. -/
theorem filter_inserted {body : List (Handle .inst)} (hbody : ∀ z ∈ body, z ≠ q.insts.next) (pos : Nat)
    (calls : List (Handle .inst)) :
    (body.take pos ++ q.insts.next :: body.drop pos).filter (· ∉ q.insts.next :: calls) =
        body.filter (· ∉ calls) ∧
      body.filter (· ∉ q.insts.next :: calls) = body.filter (· ∉ calls) := by
  have hsame : body.filter (· ∉ q.insts.next :: calls) = body.filter (· ∉ calls) := by
    refine List.filter_congr fun z hz => ?_
    simp [hbody z hz]
  refine ⟨?_, hsame⟩
  rw [List.filter_append, List.filter_cons_of_neg (by simp), ← List.filter_append, List.take_append_drop, hsame]

/-- One more call is put into a function that was there. -/
theorem inserted (hp : p.Consistent) {pos : Nat} {type : Handle .type} (hfm : m ≠ f) (hsteps : q.Steps r)
    (hr : q.Inserted r pos (annotating f type m ptr)) : Called p r m ptr (q.insts.next :: calls) := by
  have hcq : q.Consistent := consistent_steps hq.steps hp
  have hnew : q.inst? q.insts.next = none := by
    rw [Option.eq_none_iff_forall_ne_some]
    exact fun i hi => Slots.ne_next_of_get? hi rfl
  have hcalls : q.insts.next ∉ calls := by
    intro hmem
    have hcall := hq.call _ hmem
    rw [instKind?, hnew] at hcall
    cases hcall
  constructor
  case steps => exact hq.steps.trans hsteps
  case globals =>
    rw [hr.rest]
    exact hq.globals
  case marker =>
    obtain ⟨x, hx, hname, hshape⟩ := hq.marker
    exact ⟨x, ((hr.function m).trans (if_neg hfm)).trans hx, hname, hshape.extend hsteps.toExtends⟩
  case new => exact hq.new
  case function =>
    intro g hg
    rw [← hq.function g hg, hr.function]
    cases hy : q.function? g with
    | none => simp
    | some y =>
      have hne : ∀ z ∈ y.body, z ≠ q.insts.next := by
        intro z hz
        obtain ⟨i, hi, -⟩ := hcq.listed g y hy z hz
        exact Slots.ne_next_of_get? hi
      obtain ⟨hplaced, hsame⟩ := filter_inserted hne pos calls
      split
      · simp only [Option.map_some, hplaced]
      · simp only [Option.map_some, hsame]
  case nodup => exact List.nodup_cons.2 ⟨hcalls, hq.nodup⟩
  case fresh =>
    intro d hd
    rcases List.mem_cons.1 hd with rfl | hd
    · rw [← hq.inst _ hcalls, hnew]
    · exact hq.fresh d hd
  case call =>
    intro d hd
    rw [instKind?, hr.inst]
    split
    · rfl
    · next hne => exact hq.call d ((List.mem_cons.1 hd).resolve_left hne)
  case inst =>
    intro h hh
    rw [List.mem_cons, not_or] at hh
    rw [hr.inst, if_neg hh.1, hq.inst h hh.2]

/-- A function that was there can be given one more call anywhere. -/
theorem insertAt (hp : p.Consistent) (hf : p.hasFunction f) (pos : Nat) :
    ∃ c r, insertAt f pos (.call m [ptr]) q = .ok c r ∧ Called p r m ptr (c :: calls) ∧
      ∀ g, r.body g = if g = f then (q.body g).take pos ++ c :: (q.body g).drop pos else q.body g := by
  obtain ⟨x, hx, -, hshape⟩ := hq.marker
  obtain ⟨void, param, hsig, -⟩ := hshape.unary
  have hfm : m ≠ f := by
    rintro rfl
    rw [hasFunction, hq.new] at hf
    cases hf
  have hfq : q.hasFunction f := by
    rw [hasFunction, ← hq.function f hfm.symm, Option.isSome_map] at hf
    exact hf
  obtain ⟨r, hrun, hr⟩ := insertAt_unary hfq ⟨x, [param], hx, hsig, rfl⟩ pos ptr
  refine ⟨_, r, hrun, hq.inserted hp hfm (steps_of_ok (edits_insertAt f pos _) hrun) hr, fun g => ?_⟩
  obtain ⟨y, hy⟩ := Option.isSome_iff_exists.1 hfq
  by_cases hg : g = f
  · simp [body, hr.function, hg, annotating, hy]
  · simp [body, hr.function, hg, annotating]

/-- Several functions are opened by calls, one after another. -/
theorem openAll (hp : p.Consistent) {fs : List (Handle .function)} (hn : fs.Nodup)
    (hfs : ∀ f ∈ fs, p.hasFunction f) :
    ∃ cs r, fs.mapM (fun f => Program.insertAt f 0 (.call m [ptr])) q = .ok cs r ∧
      Called p r m ptr (cs ++ calls) ∧ List.Forall₂ (fun f c => r.body f = c :: q.body f) fs cs ∧
      ∀ g ∉ fs, r.body g = q.body g := by
  induction fs generalizing q calls with
  | nil => exact ⟨[], q, rfl, hq, .nil, fun _ _ => rfl⟩
  | cons f fs ih =>
    obtain ⟨hf, hn⟩ := List.nodup_cons.1 hn
    obtain ⟨hlive, hfs⟩ := List.forall_mem_cons.1 hfs
    obtain ⟨c, u, hrun, hu, hbody⟩ := hq.insertAt hp hlive 0
    obtain ⟨cs, r, hruns, hr, hopened, hothers⟩ := ih hu hn hfs
    refine ⟨c :: cs, r, action_mapM_cons hrun hruns, hr.perm List.perm_middle, .cons ?_ ?_, ?_⟩
    · rw [hothers f hf, hbody, if_pos rfl]
      rfl
    · have hne : ∀ g ∈ fs, g ≠ f := fun g hg heq => hf (heq ▸ hg)
      refine ((List.forall₂_and_left fs cs).2 ⟨hne, hopened⟩).imp ?_
      rintro g d ⟨hg, hopened⟩
      rw [hopened, hbody, if_neg hg]
    · intro g hg
      rw [List.mem_cons, not_or] at hg
      rw [hothers g hg.2, hbody, if_neg hg.1]

end Called

/-! ## Marking -/

/-- In `q` each of some functions begins with its own call; besides, bodies are as in `p`. -/
def Opened (p q : Program) (fs : List (Handle .function)) (calls : List (Handle .inst)) : Prop :=
  List.Forall₂ (fun f c => q.body f = c :: p.body f) fs calls ∧ ∀ g ∉ fs, q.body g = p.body g

/-- Where the marker calls on a pointer stand in `q`, compared to `p`. -/
def Placed (p q : Program) (calls : List (Handle .inst)) : Value → Prop
  | .inst s => ∃ c, calls = [c] ∧ ∀ g, q.body g = (p.body g).flatMap fun h => if h = s then [h, c] else [h]
  | .argument f _ => Opened p q [f] calls
  | .global g => Opened p q (p.storers (.global g)) calls
  | .function _ | .constant _ => False

theorem Declared.body (hq : Declared p q m) (g : Handle .function) : q.body g = p.body g := by
  cases hx : p.function? g with
  | some x => simp [Program.body, hx, hq.kept g x hx]
  | none =>
    by_cases hg : g = m
    · subst hg
      obtain ⟨y, hy, -, hshape⟩ := hq.marker
      simp [Program.body, hx, hy, hshape.body]
    · simp [Program.body, hx, hq.others g hx hg]

theorem Declared.instKind? (hq : Declared p q m) (h : Handle .inst) : q.instKind? h = p.instKind? h := by
  rw [Program.instKind?, inst?, hq.insts, Program.instKind?, inst?]

/-- The marker of a pointer is declared in a program without markers. -/
theorem declared_eq (hp : Pristine p) (hptr : p.IsPointer ptr) :
    ∃ t u m q, valueType ptr p = .ok t u ∧ marker t u = .ok m q ∧ Declared p q m := by
  obtain ⟨t, u, hrun, hpointee⟩ := hptr
  obtain ⟨pointee, hpointee⟩ := Option.isSome_iff_exists.1 hpointee
  have hgrow : p.Grows u := grows_of_valueType hrun
  have hnames : NamesMarkers u :=
    fun g x hx hname => absurd hname (hp.names g x (hgrow.quiet.function? g ▸ hx))
  obtain ⟨m, q, hmarker, hq⟩ := marker_eq hnames hpointee
  exact ⟨t, u, m, q, hrun, hmarker, hq.after_grows hgrow⟩

/-- Several functions are opened after the marker of a pointer was declared. -/
theorem Declared.openAll (hq : Declared p q m) (hp : p.Consistent) (hpristine : Pristine p) (ptr : Value)
    {fs : List (Handle .function)} (hn : fs.Nodup) (hfs : ∀ f ∈ fs, p.hasFunction f) :
    ∃ calls r, fs.mapM (fun f => Program.insertAt f 0 (.call m [ptr])) q = .ok calls r ∧
      Called p r m ptr calls ∧ Opened p r fs calls := by
  obtain ⟨calls, r, hrun, hr, hopened, hothers⟩ := (hq.called hpristine ptr).openAll hp hn hfs
  rw [List.append_nil] at hr
  refine ⟨calls, r, hrun, hr, hopened.imp fun f c hfc => ?_, fun g hg => ?_⟩
  · rw [hfc, hq.body]
  · rw [hothers g hg, hq.body]

/-- A pointer is marked by calls at their places. -/
theorem markPointer_placed (hp : p.Consistent) (hpristine : Pristine p) (hptr : p.IsPointer ptr)
    (hvalue : (∃ h, ptr = .inst h) ∨ (∃ f index, ptr = .argument f index) ∨ ∃ g, ptr = .global g) :
    ∃ calls m q, markPointer ptr p = .ok calls q ∧ Called p q m ptr calls ∧ Placed p q calls ptr := by
  rcases hvalue with ⟨s, rfl⟩ | ⟨f, index, rfl⟩ | ⟨g, rfl⟩
  · obtain ⟨t, u, hrun, hpointee⟩ := hptr
    cases hi : p.inst? s with
    | none => simp [valueType, hi] at hrun
    | some i =>
      simp only [valueType, hi, EStateM.Result.ok.injEq] at hrun
      obtain ⟨rfl, rfl⟩ := hrun
      obtain ⟨pointee, hpointee⟩ := Option.isSome_iff_exists.1 hpointee
      obtain ⟨c, m, q, hrun, hq⟩ := markPointer_inst_eq hp hpristine.namesMarkers hi hpointee
      exact ⟨[c], m, q, hrun, hq.called hp hpristine, c, rfl, hq.body⟩
  · obtain ⟨t, u, m, w, htype, hmarker, hw⟩ := declared_eq hpristine hptr
    obtain ⟨c, q, hinsert, hq, hbody⟩ := (hw.called hpristine (.argument f index)).insertAt hp hptr.hasFunction 0
    refine ⟨[c], m, q, ?_, hq, .cons ?_ .nil, fun g hg => ?_⟩
    · refine action_bind_eq_ok.2 ⟨t, u, adaptExcept_eq_ok.2 htype, action_bind_eq_ok.2 ⟨m, w, hmarker, ?_⟩⟩
      exact action_bind_eq_ok.2 ⟨c, q, adaptExcept_eq_ok.2 hinsert, rfl⟩
    · rw [hbody, if_pos rfl, hw.body]
      rfl
    · rw [hbody, if_neg (mt List.mem_singleton.2 hg), hw.body]
  · obtain ⟨t, u, m, w, htype, hmarker, hw⟩ := declared_eq hpristine hptr
    have hstorers : storingFunctions w (.global g) = p.storers (.global g) := by
      have hcw : w.Consistent := consistent_steps hw.steps hp
      rw [storingFunctions_eq hcw, storers_congr hp.order hcw.order hw.body hw.instKind?]
    have hlive : ∀ f ∈ p.storers (.global g), p.hasFunction f :=
      fun f hf => hp.order.mem_iff.1 (List.mem_filter.1 hf).1
    obtain ⟨calls, q, hinsert, hq, hopened⟩ :=
      hw.openAll hp hpristine (.global g) (nodup_storers hp.order (.global g)) hlive
    refine ⟨calls, m, q, ?_, hq, hopened⟩
    refine action_bind_eq_ok.2 ⟨t, u, adaptExcept_eq_ok.2 htype, action_bind_eq_ok.2 ⟨m, w, hmarker, ?_⟩⟩
    exact action_bind_eq_ok.2 ⟨w, w, rfl, adaptExcept_eq_ok.2 (hstorers ▸ hinsert)⟩

/-- Where something is stored through a pointer, the pointer has calls. -/
theorem Placed.ne_nil (h : Placed p q calls ptr) (hp : p.Consistent) {x : Handle .inst} {v : Value}
    (hk : p.instKind? x = some (.store ptr v)) : calls ≠ [] := by
  have hopened {fs : List (Handle .function)} {f : Handle .function} (h : Opened p q fs calls) (hf : f ∈ fs) :
      calls ≠ [] := by
    rintro rfl
    cases h.1
    cases hf
  cases ptr with
  | inst s =>
    obtain ⟨c, rfl, -⟩ := h
    exact List.cons_ne_nil c []
  | argument f index => exact hopened h (List.mem_singleton_self f)
  | global g =>
    obtain ⟨i, hi, -⟩ := exists_inst_of_instKind? hk
    exact hopened h ((mem_storers hp.order).2 ⟨x, mem_body_of_inst? hp hi, v, hk⟩)
  | function _ | constant _ => cases h

end Precise

end ShaderModule
