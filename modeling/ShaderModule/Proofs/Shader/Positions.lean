import ShaderModule.Proofs.Shader.Lists

/-!
# Ids as positions

The records of resources and the elements of signatures have their positions as ids. An id is given when a
record is listed, given anew when records are dropped or read, and checked when elements are read; in between
an index leads to the record it was given out for.
-/

namespace ShaderModule

/-- The id of every member of a list is its position there, as far as positions fit into an id. -/
def InSequence {α : Type} (id : α → UInt32) (xs : List α) : Prop :=
  ∀ i x, xs[i]? = some x → i < UInt32.size → (id x).toNat = i

namespace InSequence

variable {α : Type} {id : α → UInt32} {xs : List α}

theorem of_ofNat (h : ∀ i x, xs[i]? = some x → id x = UInt32.ofNat i) : InSequence id xs := by
  intro i x hx hi
  rw [h i x hx]
  exact UInt32.toNat_ofNat_of_lt' hi

theorem concat (h : InSequence id xs) {x : α} (hx : xs.length < UInt32.size → (id x).toNat = xs.length) :
    InSequence id (xs ++ [x]) := by
  intro i y hy hi
  rcases Nat.lt_trichotomy i xs.length with hlt | rfl | hgt
  · rw [List.getElem?_append_left hlt] at hy
    exact h i y hy hi
  · rw [List.getElem?_concat_length, Option.some.injEq] at hy
    exact hy ▸ hx hi
  · rw [List.getElem?_eq_none (by simpa using Nat.succ_le_of_lt hgt)] at hy
    cases hy

/-- A member may be changed if its id is left. -/
theorem modify (h : InSequence id xs) {i : Nat} {f : α → α} (hf : ∀ x, xs[i]? = some x → id (f x) = id x) :
    InSequence id (xs.modify i f) := by
  intro j y hy hj
  rw [List.getElem?_modify, Option.map_eq_map, Option.map_eq_some_iff] at hy
  obtain ⟨x, hx, rfl⟩ := hy
  split
  · next hij =>
    subst hij
    rw [hf x hx]
    exact h i x hx hj
  · exact h j x hx hj

end InSequence

theorem Signature.inSequence {x : Signature} (h : x.InOrder) : InSequence Element.id x :=
  .of_ofNat fun i e he => h e i (List.mk_mem_zipIdx_iff_getElem?.2 he)

/-! ## Lists of records -/

namespace Bound

variable {π : Type} {xs : List (Bound π)}

theorem inSequence_renumber (xs : List (Bound π)) : InSequence (fun x => x.id) (renumber xs) := by
  refine .of_ofNat fun i x hx => ?_
  rw [getElem?_renumber, Option.map_eq_some_iff] at hx
  obtain ⟨y, -, rfl⟩ := hx
  rfl

theorem inSequence_push (h : InSequence (fun x => x.id) xs) (x : Bound π) :
    InSequence (fun x => x.id) (push xs x).2 :=
  h.concat UInt32.toNat_ofNatClamp_of_lt

/-- Renumbering leaves a record whose id is its position. -/
theorem renumber_eq_some (h : InSequence (fun x => x.id) xs) {i : Nat} {x : Bound π} (hx : xs[i]? = some x)
    (hi : i < UInt32.size) : (renumber xs)[i]? = some x := by
  have hid : UInt32.ofNat i = x.id := by rw [← h i x hx hi, UInt32.ofNat_toNat]
  rw [getElem?_renumber, hx, Option.map_some, hid]

end Bound

namespace Registry

variable {r : Registry} {ρ : Type}

/-- What holds of every list is to be shown of a new one only. -/
theorem forall_list_setList {P : {π : Type} → Listing π → List (Bound π) → Prop}
    (h : ∀ {π : Type} (k : Listing π), P k (r.list k)) {k : Listing ρ} {xs : List (Bound ρ)} (hxs : P k xs) :
    ∀ {π : Type} (j : Listing π), P j ((r.setList k xs).list j) := by
  intro π j
  cases k with
  | cbuffers => cases j <;> first | exact hxs | exact h _
  | samplers => cases j <;> first | exact hxs | exact h _
  | srvs => cases j <;> first | exact hxs | exact h _
  | uavs => cases j <;> first | exact hxs | exact h _

/-- The ids of all records are their positions. -/
structure InSequence (r : Registry) : Prop where
  list : ∀ {π : Type} (k : Listing π), ShaderModule.InSequence (fun x => x.id) (r.list k)

theorem InSequence.setList (h : r.InSequence) {k : Listing ρ} {xs : List (Bound ρ)}
    (hxs : ShaderModule.InSequence (fun x => x.id) xs) : (r.setList k xs).InSequence :=
  ⟨forall_list_setList h.list hxs⟩

theorem inSequence_empty : InSequence .empty := by
  refine ⟨fun k i x hx => ?_⟩
  cases k <;> cases hx

theorem inSequence_unbind (r : Registry) (gs : List (Handle .global)) : (r.unbind gs).InSequence := by
  refine ⟨fun k => ?_⟩
  rw [list_unbind]
  exact Bound.inSequence_renumber _

theorem inSequence_normal (r : Registry) : r.normal.InSequence := by
  have hmap : ∀ (f : View → View) (xs : List (Bound View)), ShaderModule.InSequence (fun x => x.id)
      ((Bound.renumber xs).map fun x => { x with payload := f x.payload }) := by
    intro f xs i x hx
    rw [List.getElem?_map, Option.map_eq_some_iff] at hx
    obtain ⟨y, hy, rfl⟩ := hx
    exact Bound.inSequence_renumber xs i y hy
  refine ⟨fun k => ?_⟩
  cases k with
  | cbuffers => exact Bound.inSequence_renumber _
  | samplers => exact Bound.inSequence_renumber _
  | srvs => exact hmap _ _
  | uavs => exact hmap _ _

end Registry

/-! ## Operations -/

/-- A change of the records of one list as one of the records of another list, which leaves these alone unless
the lists are the same. -/
def Listing.onlyIn {ρ π : Type} : Listing ρ → Listing π → (Bound ρ → Bound ρ) → Bound π → Bound π
  | .cbuffers, .cbuffers, change => change
  | .samplers, .samplers, change => change
  | .srvs, .srvs, change => change
  | .uavs, .uavs, change => change
  | _, _, _ => id

theorem Registry.list_setList_modify {ρ π : Type} (r : Registry) (k : Listing ρ) (i : Nat)
    (change : Bound ρ → Bound ρ) (j : Listing π) :
    (r.setList k ((r.list k).modify i change)).list j = (r.list j).modify i (k.onlyIn j change) := by
  cases k <;> cases j <;> first | rfl | exact (List.modify_id _ _).symm

namespace ShaderOp

/-- Whether an operation leaves the id of a record that it changes in its place. -/
def sparesIds (s : Shader) : ShaderOp → Bool
  | .modifyResource k index change =>
    match s.resource k index with
    | .ok x => (change x).id = x.id
    | .error _ => true
  | _ => true

/-- Whether an operation leaves a list of records in place and drops none of them. -/
def keepsList {π : Type} (s : Shader) (k : Listing π) : ShaderOp → Bool
  | .removeResources gs => (s.tables.resources.list k).all fun x => x.global ∉ gs
  | .removeGlobal g => (s.tables.resources.list k).all fun x => x.global ≠ g
  | .load => !(Tables.load s.program).isOk
  | .reopen => false
  | _ => true

/-- What an operation makes of the record of a list at an index. -/
def edit {π : Type} (k : Listing π) (index : UInt32) (x : Bound π) : ShaderOp → Bound π
  | .modifyResource j i change => if i = index then j.onlyIn k change x else x
  | _ => x

/-- Whether an operation puts elements into a signature. -/
def feeds (s : Shader) (kind : SignatureKind) : ShaderOp → Bool
  | .appendElement k _ => k = kind
  | .load => (Tables.load s.program).isOk
  | _ => false

/-- A condition is met by operations one after another. -/
def Throughout (C : Shader → ShaderOp → Bool) : Shader → List ShaderOp → Prop
  | _, [] => True
  | s, op :: ops => C s op ∧ Throughout C (op.apply s) ops

instance (C : Shader → ShaderOp → Bool) : ∀ s ops, Decidable (Throughout C s ops)
  | _, [] => inferInstanceAs (Decidable True)
  | s, op :: ops =>
    have := instDecidableThroughout C (op.apply s) ops
    inferInstanceAs (Decidable (C s op ∧ Throughout C (op.apply s) ops))

end ShaderOp

namespace Shader

variable {s s' s'' : Shader} {op : ShaderOp} {π : Type}

theorem inSequence_of_load {t : Tables} (h : Tables.load s.program = .ok t) : t.resources.InSequence := by
  have hnormal : t.resources.normal = t.resources := congrArg Tables.resources (Tables.wellFormed_of_load h).2.1
  rw [← hnormal]
  exact Registry.inSequence_normal _

/-- Ids stay positions unless one of them is written. -/
theorem inSequence_apply (h : s.tables.resources.InSequence) (hop : op.sparesIds s) :
    (op.apply s).tables.resources.InSequence := by
  cases op with
  | addResource k x => exact h.setList (Bound.inSequence_push (h.list k) _)
  | modifyResource k index change =>
    rw [modifyResource_apply]
    refine h.setList ((h.list k).modify fun x hx => ?_)
    simp only [ShaderOp.sparesIds, resource_eq_ok.2 hx, decide_eq_true_eq] at hop
    exact hop
  | removeResources gs =>
    rw [(removed_apply s gs).resources]
    exact Registry.inSequence_unbind _ _
  | removeGlobal g =>
    rw [removeGlobal_apply]
    exact Registry.inSequence_unbind _ _
  | load =>
    simp only [ShaderOp.apply, load]
    cases hload : Tables.load s.program with
    | ok t => exact inSequence_of_load hload
    | error cause => exact h
  | reopen => exact Registry.inSequence_empty
  | addShared g =>
    obtain ⟨shared, happly⟩ := addShared_apply s g
    rw [happly]
    exact h
  | program | appendElement | releaseSignature => exact h
  | _ =>
    rw [(sameLists_apply rfl s).resources]
    exact h

/-- What is behind an index stays behind it. -/
theorem resource_apply (h : s.tables.resources.InSequence) {k : Listing π} {index : UInt32} {x : Bound π}
    (hx : s.resource k index = .ok x) (hop : op.keepsList s k) :
    (op.apply s).resource k index = .ok (op.edit k index x) := by
  rw [resource_eq_ok] at hx ⊢
  -- A removal that spares the list only renumbers it.
  have hunbind : ∀ gs, (∀ y ∈ s.tables.resources.list k, y.global ∉ gs) →
      ((s.tables.resources.unbind gs).list k)[index.toNat]? = some x := by
    intro gs hgs
    rw [Registry.list_unbind, Bound.unbind, List.filter_eq_self.2 fun y hy => decide_eq_true (hgs y hy)]
    exact Bound.renumber_eq_some (h.list k) hx index.toNat_lt
  cases op with
  | addResource j y =>
    have hprefix : s.tables.resources.list k <+: (s.tables.resources.add j y).2.list k :=
      Registry.forall_list_setList (P := fun k xs => s.tables.resources.list k <+: xs)
        (fun _ => List.prefix_refl _) (Bound.isPrefix_push _ _) k
    obtain ⟨ys, hys⟩ := hprefix
    show ((s.tables.resources.add j y).2.list k)[index.toNat]? = some x
    rw [← hys, List.getElem?_append_left (List.getElem?_eq_some_iff.1 hx).1, hx]
  | modifyResource j i change =>
    rw [modifyResource_apply, Registry.list_setList_modify, List.getElem?_modify, hx]
    simp only [ShaderOp.edit, UInt32.toNat_inj]
    split <;> rfl
  | removeResources gs =>
    rw [(removed_apply s gs).resources]
    refine hunbind gs fun y hy => ?_
    exact of_decide_eq_true (List.all_eq_true.1 hop y hy)
  | removeGlobal g =>
    rw [removeGlobal_apply]
    refine hunbind [g] fun y hy => ?_
    rw [List.mem_singleton]
    exact of_decide_eq_true (List.all_eq_true.1 hop y hy)
  | load =>
    simp only [ShaderOp.apply, load]
    cases hload : Tables.load s.program with
    | ok t =>
      rw [ShaderOp.keepsList, hload] at hop
      cases hop
    | error cause => exact hx
  | reopen => cases hop
  | addShared g =>
    obtain ⟨shared, happly⟩ := addShared_apply s g
    rw [happly]
    exact hx
  | program | appendElement | releaseSignature => exact hx
  | _ =>
    rw [(sameLists_apply rfl s).resources]
    exact hx

/-- A signature that is empty stays so while nothing is put into it. -/
theorem signature_apply {kind : SignatureKind} (h : s.tables.signatures.get kind = [])
    (hop : op.feeds s kind = false) : (op.apply s).tables.signatures.get kind = [] := by
  cases op with
  | appendElement k e =>
    have hne : kind ≠ k := Ne.symm (of_decide_eq_false hop)
    exact (Signatures.get_set_of_ne hne _ _).trans h
  | releaseSignature k =>
    by_cases hk : kind = k
    · subst hk
      exact Signatures.get_set _ _ _
    · exact (Signatures.get_set_of_ne hk _ _).trans h
  | modifyResource k index change =>
    rw [modifyResource_apply]
    exact h
  | removeResources gs =>
    rw [(removed_apply s gs).rest]
    exact h
  | removeGlobal g =>
    rw [removeGlobal_apply]
    exact h
  | load =>
    simp only [ShaderOp.apply, load]
    cases hload : Tables.load s.program with
    | ok t =>
      rw [ShaderOp.feeds, hload] at hop
      cases hop
    | error cause => exact h
  | reopen => cases kind <;> rfl
  | addShared g =>
    obtain ⟨shared, happly⟩ := addShared_apply s g
    rw [happly]
    exact h
  | program | addResource => exact h
  | _ =>
    rw [(sameLists_apply rfl s).signatures]
    exact h

/-! ## Runs -/

theorem inSequence_foldl {ops : List ShaderOp} (h : s.tables.resources.InSequence)
    (hops : ShaderOp.Throughout (fun s op => op.sparesIds s) s ops) :
    (ops.foldl ShaderOp.apply s).tables.resources.InSequence := by
  induction ops generalizing s with
  | nil => exact h
  | cons op ops ih => exact ih (inSequence_apply h hops.1) hops.2

theorem resource_foldl {ops : List ShaderOp} (h : s.tables.resources.InSequence) {k : Listing π} {index : UInt32}
    {x : Bound π} (hx : s.resource k index = .ok x)
    (hops : ShaderOp.Throughout (fun s op => op.sparesIds s && op.keepsList s k) s ops) :
    (ops.foldl ShaderOp.apply s).resource k index = .ok (ops.foldl (ShaderOp.edit k index) x) := by
  induction ops generalizing s x with
  | nil => exact hx
  | cons op ops ih =>
    obtain ⟨hids, hkeeps⟩ := Bool.and_eq_true_iff.1 hops.1
    exact ih (inSequence_apply h hids) (resource_apply h hx hkeeps) hops.2

theorem signature_foldl {ops : List ShaderOp} {kind : SignatureKind} (h : s.tables.signatures.get kind = [])
    (hops : ShaderOp.Throughout (fun s op => !op.feeds s kind) s ops) :
    (ops.foldl ShaderOp.apply s).tables.signatures.get kind = [] := by
  induction ops generalizing s with
  | nil => exact h
  | cons op ops ih => exact ih (signature_apply h (Bool.not_eq_true' _ ▸ hops.1)) hops.2

theorem orderly_foldl (ops : List ShaderOp) (h : s.tables.Orderly) :
    (ops.foldl ShaderOp.apply s).tables.Orderly := by
  induction ops generalizing s with
  | nil => exact h
  | cons op ops ih => exact ih (orderly_apply op h)

/-! ## Positions -/

/-- A module that operations lead to that write no ids, from one over any program with empty tables. -/
def Sequenced (s : Shader) : Prop :=
  ∃ p ops, ShaderOp.Throughout (fun s op => op.sparesIds s) (.ofProgram p) ops ∧
    s = ops.foldl ShaderOp.apply (.ofProgram p)

/-- The ids of all records and elements are their positions. -/
structure InSequence (s : Shader) : Prop where
  resources  : s.tables.resources.InSequence
  signatures : ∀ kind, ShaderModule.InSequence Element.id (s.tables.signatures.get kind)

/-- Ids and indices of a module are positions. -/
structure Positions (s : Shader) : Prop where
  ids      : s.InSequence
  found    : ∀ {π : Type} (k : Listing π) (index : UInt32),
    (∃ x, s.resource k index = .ok x) ↔ index.toNat < (s.tables.resources.list k).length
  /-- A record is listed at the end, under its position, and is found there as it was changed in place. -/
  listed   : ∀ {π : Type} (k : Listing π) (x : Bound π), (s.tables.resources.list k).length < UInt32.size →
    ∃ id s' y, addResource k x s = .ok id s' ∧ id.toNat = (s.tables.resources.list k).length ∧
      y = { x with id, payload := k.classed x.payload } ∧
      s'.tables.resources.list k = s.tables.resources.list k ++ [y] ∧
      ∀ later, ShaderOp.Throughout (fun s op => op.sparesIds s && op.keepsList s k) s' later →
        (later.foldl ShaderOp.apply s').resource k id = .ok (later.foldl (ShaderOp.edit k id) y)
  appended : ∀ kind e, (s.tables.signatures.get kind).length < UInt32.size →
    ∃ id s', appendElement kind e s = .ok id s' ∧ id.toNat = (s.tables.signatures.get kind).length ∧
      s'.tables.signatures.get kind = s.tables.signatures.get kind ++ [{ e with id }]
  /-- A whole signature is handed over, and what is appended next gets the first id. -/
  released : ∀ kind, ∃ s', releaseSignature kind s = .ok (s.tables.signatures.get kind) s' ∧
    s'.tables.signatures.get kind = [] ∧
    ∀ later, ShaderOp.Throughout (fun s op => !op.feeds s kind) s' later →
      ∀ e, ∃ t, appendElement kind e (later.foldl ShaderOp.apply s') = .ok 0 t
  /-- Whatever was done to ids in the meantime, removals and reading what was written restore them. -/
  restored : ∀ (later : List ShaderOp) (t : Shader), t = later.foldl ShaderOp.apply s →
    (∀ gs, ((ShaderOp.removeResources gs).apply t).InSequence) ∧
    (∀ g, ((ShaderOp.removeGlobal g).apply t).InSequence) ∧
    ∀ t', emit t = .ok () t' →
      (∀ t'', load t' = .ok () t'' → t''.InSequence) ∧
      (Options.reserved t.tables.options.bits = 0 → t'.program.nodes.entries.length ≤ UInt32.size →
        ∃ t'', load t' = .ok () t'' ∧ t''.tables.resources = t.tables.resources.normal)

theorem inSequence_of_orderly (horderly : s.tables.Orderly) (h : s.tables.resources.InSequence) :
    s.InSequence :=
  ⟨h, fun kind => Signature.inSequence (horderly.signatures kind)⟩

theorem Sequenced.inSequence (h : s.Sequenced) : s.InSequence := by
  obtain ⟨p, ops, hops, rfl⟩ := h
  exact inSequence_of_orderly (orderly_foldl ops Tables.orderly_empty)
    (inSequence_foldl Registry.inSequence_empty hops)

theorem Sequenced.orderly (h : s.Sequenced) : s.tables.Orderly := by
  obtain ⟨p, ops, -, rfl⟩ := h
  exact orderly_foldl ops Tables.orderly_empty

theorem exists_resource_iff (s : Shader) (k : Listing π) (index : UInt32) :
    (∃ x, s.resource k index = .ok x) ↔ index.toNat < (s.tables.resources.list k).length := by
  simp only [resource_eq_ok, List.getElem?_eq_some_iff]
  exact ⟨fun ⟨_, hlt, _⟩ => hlt, fun hlt => ⟨_, hlt, rfl⟩⟩

theorem appendElement_of_nil {kind : SignatureKind} (h : s.tables.signatures.get kind = []) (e : Element) :
    ∃ s', appendElement kind e s = .ok 0 s' := by
  have hrun : appendElement kind e s = .ok (UInt32.ofNat (s.tables.signatures.get kind).length)
      ((ShaderOp.appendElement kind e).apply s) := rfl
  rw [h] at hrun
  exact ⟨_, hrun⟩

theorem inSequence_removeResources (h : s.tables.Orderly) (gs : List (Handle .global)) :
    ((ShaderOp.removeResources gs).apply s).InSequence := by
  refine inSequence_of_orderly (orderly_apply _ h) ?_
  rw [(removed_apply s gs).resources]
  exact Registry.inSequence_unbind _ _

theorem inSequence_removeGlobal (h : s.tables.Orderly) (g : Handle .global) :
    ((ShaderOp.removeGlobal g).apply s).InSequence := by
  refine inSequence_of_orderly (orderly_apply _ h) ?_
  rw [removeGlobal_apply]
  exact Registry.inSequence_unbind _ _

theorem inSequence_load (h : load s = .ok () s') : s'.InSequence := by
  obtain ⟨t, ht, rfl⟩ := load_eq_ok.1 h
  exact inSequence_of_orderly (Tables.orderly_of_load ht) (inSequence_of_load ht)

/-- In a module whose ids nobody wrote they are positions, and so is every index that is given out. -/
theorem positions_of_sequenced (h : s.Sequenced) : s.Positions := by
  constructor
  case ids => exact h.inSequence
  case found => exact fun k index => s.exists_resource_iff k index
  case listed =>
    intro π k x hlen
    let y : Bound π := { x with
      id := UInt32.ofNatClamp (s.tables.resources.list k).length, payload := k.classed x.payload }
    have hid : y.id.toNat = (s.tables.resources.list k).length := UInt32.toNat_ofNatClamp_of_lt hlen
    have hlist : ((ShaderOp.addResource k x).apply s).tables.resources.list k =
        s.tables.resources.list k ++ [y] := Registry.list_setList _ _ _
    refine ⟨y.id, (ShaderOp.addResource k x).apply s, y, rfl, hid, rfl, hlist, fun later hlater => ?_⟩
    refine resource_foldl (inSequence_apply h.inSequence.resources rfl) ?_ hlater
    rw [resource_eq_ok, hlist, hid, List.getElem?_concat_length]
  case appended =>
    intro kind e hlen
    exact ⟨_, _, rfl, UInt32.toNat_ofNat_of_lt' hlen, Signatures.get_set _ _ _⟩
  case released =>
    intro kind
    have hempty : ((ShaderOp.releaseSignature kind).apply s).tables.signatures.get kind = [] :=
      Signatures.get_set _ _ _
    refine ⟨(ShaderOp.releaseSignature kind).apply s, rfl, hempty, fun later hlater => ?_⟩
    exact appendElement_of_nil (signature_foldl hempty hlater)
  case restored =>
    rintro later t rfl
    have horderly := orderly_foldl later h.orderly
    refine ⟨inSequence_removeResources horderly, inSequence_removeGlobal horderly, fun t' hemit => ?_⟩
    refine ⟨fun t'' => inSequence_load, fun hoptions hnodes => ?_⟩
    exact ⟨_, load_of_emit horderly hoptions hemit hnodes, rfl⟩

end Shader

/-- Records come into all four lists, with ids of their own, and are changed in place; elements are appended and
handed over; records are dropped, and what is left is written and read. -/
def Shader.filingOps : List ShaderOp :=
  [.addResource .srvs ⟨⟨9, ⟨1⟩, "view", 0, 0, 1⟩, ⟨.uav, .typedBuffer, .f32, 0, 0, false, false, false⟩⟩,
    .addResource .srvs ⟨⟨9, ⟨2⟩, "plane", 0, 1, 1⟩, ⟨.srv, .typedBuffer, .f32, 0, 0, false, false, false⟩⟩,
    .addResource .uavs ⟨⟨9, ⟨1⟩, "view", 0, 0, 1⟩, ⟨.uav, .rawBuffer, .i32, 0, 0, false, false, false⟩⟩,
    .addResource .cbuffers ⟨⟨9, ⟨2⟩, "plane", 0, 0, 1⟩, ⟨16⟩⟩,
    .addResource .samplers ⟨⟨9, ⟨3⟩, "spare", 0, 0, 1⟩, ⟨.default⟩⟩,
    .modifyResource .srvs 1 fun x => { x with name := "planes" },
    .appendElement .input ⟨3, "POSITION", [0], .arbitrary, .f32, .linear, 1, 4, none, none, 0⟩,
    .releaseSignature .input,
    .appendElement .output ⟨3, "SV_Target", [0], .target, .f32, .undefined, 1, 4, none, some 0, 0⟩,
    .load, .removeResources [⟨1⟩], .emit, .load,
    .addResource .srvs ⟨⟨9, ⟨3⟩, "spare", 0, 2, 1⟩, ⟨.srv, .typedBuffer, .f32, 0, 0, false, false, false⟩⟩]

def Shader.filing : Shader := Shader.filingOps.foldl ShaderOp.apply (.ofProgram .populated)

/-- The module after a wrong id was written. -/
def Shader.misfiled : Shader := (ShaderOp.modifyResource .srvs 1 fun x => { x with id := 7 }).apply filing

/-- A wrong id is put right even by the removal of nothing. -/
theorem Shader.positions_of_sequenced_filing :
    filing.Positions ∧ ¬ misfiled.InSequence ∧ ((ShaderOp.removeResources []).apply misfiled).InSequence := by
  have hpositions : filing.Positions :=
    positions_of_sequenced ⟨.populated, filingOps, by decide +kernel, rfl⟩
  refine ⟨hpositions, fun h => ?_, ?_⟩
  · have hwrong : (misfiled.tables.resources.list .srvs)[1]?.map (fun x => x.id) = some 7 := by decide +kernel
    obtain ⟨x, hx, hid⟩ := Option.map_eq_some_iff.1 hwrong
    have hright : x.id.toNat = 1 := h.resources.list .srvs 1 x hx (by decide)
    rw [hid] at hright
    exact absurd hright (by decide)
  · exact (hpositions.restored [.modifyResource .srvs 1 fun x => { x with id := 7 }] misfiled
      (by simp only [List.foldl, misfiled])).1 []

end ShaderModule
