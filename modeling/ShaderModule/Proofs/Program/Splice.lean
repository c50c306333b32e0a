import Mathlib.Data.List.Forall2
import ShaderModule.Proofs.Program.Consistent

/-!
# Rewriting bodies

An edit of code puts a list of instructions in the place of each instruction of a body: none if it
is erased, the instruction and a new one if something is inserted after it. What several edits do
to the bodies is the composition of such splices.
-/

namespace ShaderModule

/-- Changes what an instruction does. -/
def Inst.mapKind (f : InstKind → InstKind) (i : Inst) : Inst := { i with kind := f i.kind }

namespace Program

variable {p q r : Program}

/-- In every body each instruction has become the instructions that `splice` gives for it, and besides
code only constants have changed, by growing. -/
structure Spliced (p q : Program) (splice : Handle .inst → List (Handle .inst)) : Prop where
  rest      : q = { p with constants := q.constants, functions := q.functions, insts := q.insts }
  constants : p.constants.entries <+: q.constants.entries
  order     : q.functions.order = p.functions.order
  function  : ∀ g, q.function? g = (p.function? g).map fun x => { x with body := x.body.flatMap splice }

namespace Spliced

variable {s t : Handle .inst → List (Handle .inst)}

theorem types (h : p.Spliced q s) : q.types = p.types := by
  rw [h.rest]

theorem globals (h : p.Spliced q s) : q.globals = p.globals := by
  rw [h.rest]

theorem nodes (h : p.Spliced q s) : q.nodes = p.nodes := by
  rw [h.rest]

theorem toExtends (h : p.Spliced q s) : p.Extends q :=
  ⟨h.types ▸ List.prefix_refl _, h.constants, h.nodes ▸ List.prefix_refl _⟩

theorem body (h : p.Spliced q s) (g : Handle .function) : q.body g = (p.body g).flatMap s := by
  simp only [Program.body, h.function]
  cases p.function? g <;> rfl

theorem code (h : p.Spliced q s) : q.code = p.code.flatMap s := by
  simp only [Program.code, h.order, List.flatMap_assoc]
  exact List.flatMap_congr fun g _ => h.body g

theorem trans (h : p.Spliced q s) (k : q.Spliced r t) : p.Spliced r fun x => (s x).flatMap t := by
  refine ⟨?_, h.constants.trans k.constants, k.order.trans h.order, ?_⟩
  · have hk := k.rest
    rw [h.rest] at hk
    exact hk
  · intro g
    rw [k.function, h.function]
    cases p.function? g with
    | none => rfl
    | some x => simp [List.flatMap_assoc]

theorem congr (h : p.Spliced q s) (hst : ∀ x, s x = t x) : p.Spliced q t := by
  have : s = t := funext hst
  exact this ▸ h

/-- Where no body changes, each instruction stays what it is. -/
theorem of_rest (hrest : q = { p with constants := q.constants, insts := q.insts })
    (hconstants : p.constants.entries <+: q.constants.entries) : p.Spliced q ([·]) := by
  have hfunctions : q.functions = p.functions := by rw [hrest]
  refine ⟨?_, hconstants, by rw [hfunctions], ?_⟩
  · rw [hfunctions]
    exact hrest
  · intro g
    rw [Program.function?, hfunctions, ← Program.function?]
    cases p.function? g <;> simp

theorem refl (p : Program) : p.Spliced p ([·]) := of_rest rfl (List.prefix_refl _)

/-- Whether a function is only declared shows in its body. -/
theorem isAnnotator (h : p.Spliced q s) {g : Handle .function}
    (hg : (p.body g).isEmpty = (q.body g).isEmpty) : q.isAnnotator g = p.isAnnotator g := by
  simp only [Program.body, Program.isAnnotator, h.function, type?, h.types] at *
  cases hx : p.function? g with
  | none => rfl
  | some x =>
    rw [hx] at hg
    simp only [Option.map_some, Option.getD_some] at hg
    simp only [Option.map_some, Option.any_some, Function.isDeclaration, hg]
    rfl

end Spliced

theorem edits_of_ok {ε α : Type} {kept : Handle .function → Prop} {e : Edit ε α} {a : α}
    (he : Along (Edits kept) e) (h : e p = .ok a q) : p.Edits kept q := by
  have hedits := he p
  rwa [h] at hedits

theorem steps_of_ok {ε α : Type} {e : Edit ε α} {a : α} (he : Along (Edits fun _ => False) e)
    (h : e p = .ok a q) : p.Steps q := (edits_of_ok he h).steps

theorem consistent_of_ok {ε α : Type} {e : Edit ε α} {a : α} (hp : p.Consistent)
    (he : Along (Edits fun _ => False) e) (h : e p = .ok a q) : q.Consistent := consistent_steps (steps_of_ok he h) hp

theorem mem_body_of_inst? (hp : p.Consistent) {h : Handle .inst} {i : Inst} (hi : p.inst? h = some i) :
    h ∈ p.body i.parent := by
  obtain ⟨g, hg, hh⟩ := hp.parent h i hi
  simpa [body, hg] using hh

theorem inst?_of_mem_body (hp : p.Consistent) {g : Handle .function} {h : Handle .inst}
    (hh : h ∈ p.body g) : ∃ i, p.inst? h = some i ∧ i.parent = g := by
  unfold body at hh
  cases hg : p.function? g with
  | none => simp [hg] at hh
  | some x => exact hp.listed g x hg h (by simpa [hg] using hh)

theorem nodup_body (hp : p.Consistent) (g : Handle .function) : (p.body g).Nodup := by
  unfold body
  cases hg : p.function? g with
  | none => exact .nil
  | some x => exact hp.nodup g x hg

/-! ## Erasing and replacing -/

theorem flatMap_filter_ne (h : Handle .inst) (hs : List (Handle .inst)) :
    hs.flatMap (fun x => if x = h then [] else [x]) = hs.filter (· ≠ h) := by
  induction hs with
  | nil => rfl
  | cons x hs ih =>
    rw [List.flatMap_cons, ih]
    by_cases hx : x = h <;> simp [hx]

theorem eraseInst_eq (hp : p.Consistent) {h : Handle .inst} {i : Inst} (hi : p.inst? h = some i) :
    ∃ q, eraseInst h p = .ok i q ∧ p.Spliced q (fun x => if x = h then [] else [x]) ∧
      ∀ x, q.inst? x = if x = h then none else p.inst? x := by
  let q : Program := { p with
    insts := p.insts.erase h
    functions := p.functions.modify i.parent fun f => { f with body := f.body.filter (· ≠ h) } }
  refine ⟨q, by simp only [eraseInst, hi, q], ⟨rfl, List.prefix_refl _, rfl, ?_⟩, ?_⟩
  · intro g
    simp only [function?, q, Listed.toSlots_modify, Slots.get?_modify, flatMap_filter_ne]
    split
    · rfl
    · next hg =>
      -- An instruction stands in no body but its parent's.
      cases hx : p.functions.get? g with
      | none => rfl
      | some x =>
        have hh : h ∉ x.body := by
          intro hh
          obtain ⟨j, hj, hparent⟩ := hp.listed g x hx h hh
          cases hi.symm.trans hj
          exact hg hparent.symm
        have hbody : x.body.filter (· ≠ h) = x.body := by
          rw [List.filter_eq_self]
          intro y hy
          have hne : y ≠ h := fun heq => hh (heq ▸ hy)
          simpa using hne
        simp only [Option.map_some, hbody]
  · intro x
    by_cases hx : x = h
    · simp [inst?, q, hx]
    · simp [inst?, q, hx, Slots.get?_erase_of_ne hx]

theorem eraseInsts_eq (hp : p.Consistent) {hs : List (Handle .inst)} (hn : hs.Nodup)
    (hlive : ∀ h ∈ hs, p.hasInst h) :
    ∃ q, eraseInsts hs p = .ok () q ∧ p.Spliced q (fun x => if x ∈ hs then [] else [x]) ∧
      ∀ x, q.inst? x = if x ∈ hs then none else p.inst? x := by
  induction hs generalizing p with
  | nil => exact ⟨p, rfl, (Spliced.refl p).congr fun _ => rfl, fun _ => rfl⟩
  | cons h hs ih =>
    obtain ⟨hnot, hn⟩ := List.nodup_cons.1 hn
    obtain ⟨i, hi⟩ := Option.isSome_iff_exists.1 (hlive h List.mem_cons_self)
    obtain ⟨q, hq, hspliced, hinst⟩ := eraseInst_eq hp hi
    have hlive' : ∀ x ∈ hs, q.hasInst x := by
      intro x hx
      have hne : x ≠ h := fun heq => hnot (heq ▸ hx)
      rw [hasInst, hinst, if_neg hne]
      exact hlive x (List.mem_cons_of_mem _ hx)
    obtain ⟨r, hr, hspliced', hinst'⟩ := ih (consistent_of_ok hp (edits_eraseInst h) hq) hn hlive'
    refine ⟨r, ?_, (hspliced.trans hspliced').congr ?_, ?_⟩
    · exact action_bind_eq_ok.2 ⟨(), q, action_bind_eq_ok.2 ⟨i, q, hq, rfl⟩, hr⟩
    · intro x
      by_cases hx : x = h <;> simp [hx]
    · intro x
      rw [hinst', hinst]
      by_cases hx : x = h <;> simp [hx]

/-- Instructions can be erased in two goes. -/
theorem eraseInsts_append_eq_ok {hs hs' : List (Handle .inst)} :
    eraseInsts (hs ++ hs') p = .ok () r ↔ ∃ q, eraseInsts hs p = .ok () q ∧ eraseInsts hs' q = .ok () r := by
  rw [eraseInsts, List.forM_eq_forM, List.forM_append, action_bind_eq_ok]
  exact ⟨fun ⟨(), q, h⟩ => ⟨q, h⟩, fun ⟨q, h⟩ => ⟨(), q, h⟩⟩

theorem spliced_replaceUses (p : Program) (old new : Value) : p.Spliced (p.replaceUses old new) ([·]) :=
  .of_rest rfl (List.prefix_refl _)

theorem inst?_replaceUses (p : Program) (old new : Value) (h : Handle .inst) :
    (p.replaceUses old new).inst? h = (p.inst? h).map (·.mapKind (·.replace old new)) := by
  simp [replaceUses, inst?, Inst.mapKind]

/-! ## Inserting annotations -/

/-- Inserting right after an element that a list has once puts the new one beside it. -/
theorem exists_position (h : Handle .inst) {a : Handle .inst} :
    ∀ {hs : List (Handle .inst)}, a ∈ hs → hs.Nodup →
      ∃ n, hs.findIdx? (fun x => decide (x = a)) = some n ∧
        hs.take (n + 1) ++ h :: hs.drop (n + 1) = hs.flatMap fun x => if x = a then [x, h] else [x]
  | x :: hs, ha, hn => by
    obtain ⟨hx, hn⟩ := List.nodup_cons.1 hn
    by_cases hxa : x = a
    · subst hxa
      refine ⟨0, by simp [List.findIdx?_cons], ?_⟩
      have hrest : hs.flatMap (fun y => if y = x then [y, h] else [y]) = hs := by
        have hsame : ∀ y ∈ hs, (if y = x then [y, h] else [y]) = [y] := by
          intro y hy
          have hne : y ≠ x := fun heq => hx (heq ▸ hy)
          exact if_neg hne
        rw [List.flatMap_congr hsame]
        simp
      rw [List.flatMap_cons, hrest]
      simp
    · have ha : a ∈ hs := (List.mem_cons.1 ha).resolve_left (Ne.symm hxa)
      obtain ⟨n, hfind, hinsert⟩ := exists_position h ha hn
      refine ⟨n + 1, by simp [List.findIdx?_cons, hxa, hfind], ?_⟩
      rw [List.flatMap_cons, ← hinsert]
      simp [hxa]

/-- A function that takes one argument and gives a result of the given type. -/
def Unary (p : Program) (callee : Handle .function) (type : Handle .type) : Prop :=
  ∃ g params, p.function? callee = some g ∧ (p.type? g.type).bind Ty.signature? = some (type, params) ∧
    params.length = 1

theorem Spliced.unary {s : Handle .inst → List (Handle .inst)} (h : p.Spliced q s)
    {callee : Handle .function} {type : Handle .type} (hc : p.Unary callee type) : q.Unary callee type := by
  obtain ⟨g, params, hg, hsig, hlen⟩ := hc
  refine ⟨_, params, (h.function callee).trans (by rw [hg]; rfl), ?_, hlen⟩
  simpa [type?, h.types] using hsig

theorem resultType_unary {callee : Handle .function} {type : Handle .type} (hc : p.Unary callee type)
    (v : Value) : resultType (.call callee [v]) p = .ok type p := by
  obtain ⟨g, params, hg, hsig, hlen⟩ := hc
  refine action_bind_eq_ok.2 ⟨p, p, rfl, ?_⟩
  simp only [hg, hsig, hlen, List.length_singleton, if_true]
  rfl

/-- The instruction that a call of a function with one argument is entered as. -/
def annotating (parent : Handle .function) (type : Handle .type) (callee : Handle .function) (v : Value) :
    Inst := ⟨parent, .call callee [v], type, .empty⟩

/-- `q` is `p` with a new instruction at a position of the body of its function. -/
structure Inserted (p q : Program) (pos : Nat) (i : Inst) : Prop where
  rest     : q = { p with functions := q.functions, insts := q.insts }
  order    : q.functions.order = p.functions.order
  function : ∀ g, q.function? g = if g = i.parent then (p.function? g).map
    fun x => { x with body := x.body.take pos ++ p.insts.next :: x.body.drop pos } else p.function? g
  inst     : ∀ x, q.inst? x = if x = p.insts.next then some i else p.inst? x
  next     : q.insts.next.index = p.insts.next.index + 1

theorem inserted_placeInst (p : Program) (pos : Nat) (i : Inst) : p.Inserted (placeInst pos i p).2 pos i where
  rest     := rfl
  order    := rfl
  function := fun _ => Slots.get?_modify _ _ _ _
  inst     := by
    intro x
    by_cases hx : x = p.insts.next
    · simp [placeInst, inst?, hx]
    · simp [placeInst, inst?, hx, Slots.get?_push_of_ne hx]
  next     := Slots.next_push _ _

/-- The functions are there that were. -/
theorem Inserted.hasFunction {pos : Nat} {i : Inst} (h : p.Inserted q pos i) (g : Handle .function) :
    q.hasFunction g = p.hasFunction g := by
  rw [Program.hasFunction, h.function, Program.hasFunction]
  split <;> simp

/-- An instruction that is inserted changes the type of no function. -/
theorem Inserted.unary {pos : Nat} {i : Inst} {callee : Handle .function} {type : Handle .type}
    (h : p.Inserted q pos i) (hcallee : p.Unary callee type) : q.Unary callee type := by
  obtain ⟨x, params, hx, hsig, hlength⟩ := hcallee
  have htypes : q.types = p.types := by rw [h.rest]
  have hkept : ∃ y, q.function? callee = some y ∧ y.type = x.type := by
    rw [h.function, hx]
    split
    · exact ⟨_, rfl, rfl⟩
    · exact ⟨x, rfl, rfl⟩
  obtain ⟨y, hy, htype⟩ := hkept
  refine ⟨y, params, hy, ?_, hlength⟩
  rwa [type?, htypes, htype]

theorem insertAt_unary {f callee : Handle .function} {type : Handle .type} (hf : p.hasFunction f)
    (hc : p.Unary callee type) (pos : Nat) (v : Value) :
    ∃ q, insertAt f pos (.call callee [v]) p = .ok p.insts.next q ∧
      p.Inserted q pos (annotating f type callee v) := by
  refine ⟨_, ?_, inserted_placeInst p pos _⟩
  rw [insertAt_eq hf, resultType_unary hc]
  rfl

theorem insertAfter_unary (hp : p.Consistent) {a : Handle .inst} {i : Inst} (hi : p.inst? a = some i)
    {callee : Handle .function} {type : Handle .type} (hc : p.Unary callee type) (v : Value) :
    ∃ q, insertAfter a (.call callee [v]) p = .ok p.insts.next q ∧
      p.Spliced q (fun x => if x = a then [x, p.insts.next] else [x]) ∧
      (∀ x, q.inst? x = if x = p.insts.next then some (annotating i.parent type callee v) else p.inst? x) ∧
      q.insts.next.index = p.insts.next.index + 1 := by
  obtain ⟨n, hfind, hinsert⟩ :=
    exists_position p.insts.next (mem_body_of_inst? hp hi) (nodup_body hp i.parent)
  have hposition : p.position? a = some (i.parent, n) := by
    simp only [position?, hi]
    simp [hfind]
  obtain ⟨g, hg, -⟩ := hp.parent a i hi
  obtain ⟨q, hrun, hq⟩ := insertAt_unary (Option.isSome_of_eq_some hg) hc (n + 1) v
  have hconstants : q.constants = p.constants := by rw [hq.rest]
  refine ⟨q, by simp only [insertAfter_eq, hposition, hrun],
    ⟨?_, hconstants ▸ List.prefix_refl _, hq.order, ?_⟩, hq.inst, hq.next⟩
  · rw [hq.rest]
  · intro k
    rw [hq.function]
    split
    · next hk =>
      have hk : k = i.parent := hk
      have hbody : p.body i.parent = g.body := by simp [body, hg]
      rw [hk, hg, Option.map_some, Option.map_some, ← hbody, hinsert]
    · next hk =>
      -- An instruction stands in no body but its parent's.
      cases hx : p.function? k with
      | none => rfl
      | some x =>
        have ha : ∀ y ∈ x.body, (if y = a then [y, p.insts.next] else [y]) = [y] := by
          intro y hy
          refine if_neg ?_
          rintro rfl
          obtain ⟨j, hj, hparent⟩ := hp.listed k x hx y hy
          cases hi.symm.trans hj
          exact hk hparent.symm
        simp [List.flatMap_congr ha]

/-- Where an annotation is to be inserted, what it calls, and with which argument. -/
structure Order where
  anchor : Handle .inst
  callee : Handle .function
  value  : Value

/-- Carries out orders one after another. -/
def insertOrders (os : List Order) : Edit ProgramError Unit :=
  os.forM fun o => discard (insertAfter o.anchor (.call o.callee [o.value]))

/-- The instruction behind `c` is new, and is the annotation that was ordered. -/
def Carried (p q : Program) (f : Handle .function) (c : Handle .inst) (o : Order) : Prop :=
  p.insts.next.index ≤ c.index ∧
    ∃ type, p.type? type = some .void ∧ q.inst? c = some (annotating f type o.callee o.value)

/-- An order can be carried out in a function if its anchor is there and its callee takes one value and
gives none. -/
def Feasible (p : Program) (f : Handle .function) (o : Order) : Prop :=
  (∃ i, p.inst? o.anchor = some i ∧ i.parent = f) ∧
    ∃ type, p.Unary o.callee type ∧ p.type? type = some .void

theorem Feasible.anchor_lt {f : Handle .function} {o : Order} (h : p.Feasible f o) :
    o.anchor < p.insts.next := by
  obtain ⟨⟨i, hi, -⟩, -⟩ := h
  exact Slots.lt_next_of_get? hi

/-- An order can still be carried out once other annotations are inserted. -/
theorem Feasible.spliced {f : Handle .function} {o : Order} {q : Program}
    {expand : Handle .inst → List (Handle .inst)} (hq : p.Spliced q expand)
    (hold : ∀ x, x < p.insts.next → q.inst? x = p.inst? x) (h : p.Feasible f o) : q.Feasible f o := by
  have hlt := h.anchor_lt
  obtain ⟨⟨i, hi, hparent⟩, type, hunary, hvoid⟩ := h
  refine ⟨⟨i, (hold _ hlt).trans hi, hparent⟩, type, hq.unary hunary, ?_⟩
  simpa [type?, hq.types] using hvoid

/-- What is new to a later program is new to an earlier one. -/
theorem Carried.earlier {q r : Program} {f : Handle .function} {c : Handle .inst} {o : Order}
    (hnext : p.insts.next.index ≤ q.insts.next.index) (htypes : q.types = p.types)
    (h : q.Carried r f c o) : p.Carried r f c o := by
  obtain ⟨hc, type, hvoid, hinst⟩ := h
  refine ⟨Nat.le_trans hnext hc, type, ?_, hinst⟩
  simpa [type?, htypes] using hvoid

/-- Annotations of one anchor end up in the reverse of the order in which they were inserted. -/
theorem insertOrders_eq {f : Handle .function} {os : List Order} (hp : p.Consistent)
    (hos : ∀ o ∈ os, p.Feasible f o) :
    ∃ (q : Program) (calls : Handle .inst → List (Handle .inst)),
      insertOrders os p = .ok () q ∧ p.Spliced q (fun x => x :: calls x) ∧
      (∀ x, x < p.insts.next → q.inst? x = p.inst? x) ∧
      ∀ x, List.Forall₂ (p.Carried q f) (calls x) (os.filter (fun o => decide (o.anchor = x))).reverse := by
  induction os generalizing p with
  | nil => exact ⟨p, fun _ => [], rfl, .refl p, fun _ _ => rfl, fun _ => .nil⟩
  | cons o os ih =>
    have hlater : ∀ o' ∈ os, p.Feasible f o' := fun o' ho' => hos o' (List.mem_cons_of_mem _ ho')
    obtain ⟨⟨i, hi, rfl⟩, type, hunary, hvoid⟩ := hos o List.mem_cons_self
    obtain ⟨q, hq, hspliced, hinst, hnext⟩ := insertAfter_unary hp hi hunary o.value
    have hold : ∀ x, x < p.insts.next → q.inst? x = p.inst? x := by
      intro x hx
      rw [hinst, if_neg]
      rintro rfl
      exact Nat.lt_irrefl _ hx
    obtain ⟨r, calls, hr, hspliced', hinst', hcalls⟩ :=
      ih (consistent_of_ok hp (edits_insertAfter _ _) hq) fun o' ho' => (hlater o' ho').spliced hspliced hold
    -- All anchors are older than the call just inserted, so nothing lands right behind it.
    have hnew : calls p.insts.next = [] := by
      have hnone : os.filter (fun o' => decide (o'.anchor = p.insts.next)) = [] := by
        rw [List.filter_eq_nil_iff]
        intro o' ho' heq
        have hlt := (hlater o' ho').anchor_lt
        rw [of_decide_eq_true heq] at hlt
        exact Nat.lt_irrefl _ hlt
      have := hcalls p.insts.next
      rw [hnone] at this
      exact List.forall₂_nil_right_iff.1 this
    refine ⟨r, fun x => calls x ++ if x = o.anchor then [p.insts.next] else [], ?_, ?_, ?_, ?_⟩
    · exact action_bind_eq_ok.2 ⟨(), q, action_bind_eq_ok.2 ⟨_, q, hq, rfl⟩, hr⟩
    · refine (hspliced.trans hspliced').congr ?_
      intro x
      by_cases hx : x = o.anchor <;> simp [hx, hnew]
    · intro x hx
      rw [hinst' x ?_, hold x hx]
      show x.index < q.insts.next.index
      rw [hnext]
      exact Nat.lt_succ_of_lt hx
    · intro x
      have hrest := (hcalls x).imp fun c o' => Carried.earlier (hnext ▸ Nat.le_succ _) hspliced.types
      by_cases hx : o.anchor = x
      · have hone : p.Carried r i.parent p.insts.next o := by
          refine ⟨Nat.le_refl _, type, hvoid, ?_⟩
          rw [hinst', hinst, if_pos rfl]
          show p.insts.next.index < q.insts.next.index
          omega
        simp only [hx, List.filter_cons, decide_true, if_true, List.reverse_cons]
        exact List.rel_append hrest (.cons hone .nil)
      · have hxa : x ≠ o.anchor := Ne.symm hx
        simpa [List.filter_cons, hx, hxa] using hrest

end Program

end ShaderModule
