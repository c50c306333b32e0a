import ShaderModule.Proofs.Record.Records
import ShaderModule.Proofs.Table.Ordered

/-!
# Reloading side-tables

What `emit` writes, `load` reads back: of every group one record or a list of them is entered, and
is still what it was when the program is read. Conversely tables that were loaded can be written at
once, since all they refer to is in the program.
-/

namespace ShaderModule

/-! ## Tables of records -/

section Table

variable {kind : Kind} {α γ : Type} {get : γ → Except Fault (Handle kind × α)} {ops : List γ}
  {m : Ordered (Handle kind) α}

/-- Reads entries one after another into a table. -/
theorem foldlM_insert {es : List (Handle kind × α)}
    (h : List.Forall₂ (fun op e => get op = .ok e) ops es) :
    ops.foldlM (fun t op => do let e ← get op; return t.insert e.1 e.2) m =
      .ok (es.foldl (fun t e => t.insert e.1 e.2) m) := by
  induction h generalizing m with
  | nil => rfl
  | cons he _ ih =>
    rw [List.foldlM_cons, he]
    exact ih

/-- A table that was read is in order if it was before, and its new entries were read. -/
theorem sorted_of_foldlM {t : Ordered (Handle kind) α} {P : Handle kind × α → Prop}
    (hget : ∀ op e, get op = .ok e → P e)
    (h : ops.foldlM (fun t op => do let e ← get op; return t.insert e.1 e.2) m = .ok t)
    (hm : m.Sorted) (hp : ∀ e ∈ m.entries, P e) : t.Sorted ∧ ∀ e ∈ t.entries, P e := by
  induction ops generalizing m with
  | nil =>
    cases h
    exact ⟨hm, hp⟩
  | cons op ops ih =>
    rw [List.foldlM_cons] at h
    obtain ⟨m', hop, h⟩ := bind_eq_ok.1 h
    obtain ⟨e, he, hm'⟩ := bind_eq_ok.1 hop
    cases hm'
    refine ih h (Ordered.sorted_insert hm _ _) ?_
    intro x hx
    rcases Ordered.mem_insertEntry hx with rfl | hx
    · exact hget op e he
    · exact hp x hx

end Table

namespace Source

variable {kind : Kind} {α : Type} {l : Layout (Handle kind × α)}

/-- Reads one entry of a table. -/
def entry (l : Layout (Handle kind × α)) (s : Source) : Operand → Except Fault (Handle kind × α)
  | some h => l.read s h
  | none => .error (.null l.what)

theorem readTable_eq (s : Source) (h : Handle .node) :
    s.readTable l h = (do
      (← s.operands h).foldlM (fun t op => do let e ← entry l s op; return t.insert e.1 e.2) .empty) := by
  unfold readTable
  congr 1
  funext ops
  congr 1
  funext t op
  cases op with
  | none => rfl
  | some h => rfl

variable {refs : Handle kind × α → List Entity}

/-- A tuple of the records of a table in order reads as the table. -/
theorem keeps_readTable {q : Program} {t : Ordered (Handle kind) α} (ht : t.Sorted)
    {hs : List (Handle .node)} {n : Handle .node} (hn : q.node? n = some (.tuple (hs.map some)))
    (h : List.Forall₂ (fun e n => q.Keeps (refs e) (fun s => l.read s n) e) t.entries hs) :
    q.Keeps (t.entries.flatMap refs) (fun s => s.readTable l n) t := by
  intro s hext hm he
  have hentries : List.Forall₂ (fun op e => entry l s op = .ok e) (hs.map some) t.entries := by
    rw [List.forall₂_map_left_iff]
    exact Program.Keeps.forall₂ h.flip hext hm he
  show s.readTable l n = .ok t
  rw [readTable_eq]
  refine bind_eq_ok.2 ⟨hs.map some, operands_eq (hext.node? hn), ?_⟩
  rw [foldlM_insert hentries, Ordered.foldl_insert_entries ht]

/-- A table that was read is in order and refers to entities of the program only. -/
theorem reads_readTable (hl : l.Lawful anyShape refs) {s : Source} {n : Handle .node}
    {t : Ordered (Handle kind) α} (h : s.readTable l n = .ok t) :
    t.Sorted ∧ ∀ e ∈ t.entries, ∀ r ∈ refs e, s.program.has r := by
  rw [readTable_eq] at h
  obtain ⟨ops, -, h⟩ := bind_eq_ok.1 h
  refine sorted_of_foldlM ?_ h Ordered.sorted_empty (by simp [Ordered.empty])
  intro op e he
  cases op with
  | none => cases he
  | some n => exact (hl.reads s n e he).2

end Source

/-! ## The normal form -/

/-- The view as the schema of read-only views keeps it. -/
def View.readOnly (v : View) : View :=
  { v with cls := .srv, globallyCoherent := false, hasCounter := false, rasterizerOrdered := false }

/-- The view as the schema of read-write views keeps it. -/
def View.readWrite (v : View) : View := { v with cls := .uav, samples := 0 }

theorem View.readOnly_eq {v : View} (h : v.ReadOnly) : v.readOnly = v := by
  obtain ⟨hcls, hcoherent, hcounter, hordered⟩ := h
  cases v
  cases hcls
  cases hcoherent
  cases hcounter
  cases hordered
  rfl

theorem View.readWrite_eq {v : View} (h : v.ReadWrite) : v.readWrite = v := by
  obtain ⟨hcls, hsamples⟩ := h
  cases v
  cases hcls
  cases hsamples
  rfl

/-- The registry as the schema keeps it: ids are positions, classes are those of the lists, and a view
has only what its class has. -/
def Registry.normal (r : Registry) : Registry where
  cbuffers := Bound.renumber r.cbuffers
  samplers := Bound.renumber r.samplers
  srvs     := (Bound.renumber r.srvs).map fun x => { x with payload := x.payload.readOnly }
  uavs     := (Bound.renumber r.uavs).map fun x => { x with payload := x.payload.readWrite }

/-- The tables as they are found again in the metadata of a program: the registry in normal form, and
all group-shared globals listed. -/
def Tables.normal (t : Tables) (p : Program) : Tables :=
  { t with resources := t.resources.normal, shared := p.sharedGlobals }

namespace Layout

variable {ρ : Type} {l : Layout ρ} {x y : ρ}

/-- Records that all slots put alike are written alike. -/
theorem write_congr (h : ∀ f ∈ l.slots, f.put x = f.put y) : l.write x = l.write y := by
  have hparts : ∀ z : ρ, (l.slots.mapM fun f => f.put z) = (l.slots.map fun f => f.put z).mapM id := by
    intro z
    rw [List.mapM_map]
    rfl
  have hmap := List.map_congr_left h
  simp only [write, hparts, hmap]

end Layout

theorem Cell.put_list_map {α : Type} (missing : Nat → String) {layout : Nat → Layout α} {f : α → α}
    (h : ∀ i x, (layout i).write (f x) = (layout i).write x) (xs : List α) :
    (Cell.list missing layout).put (xs.map f) = (Cell.list missing layout).put xs := by
  simp only [Cell.list, List.zipIdx_map, List.mapM_map]
  congr 1
  refine congrArg (fun g => xs.zipIdx.mapM g) ?_
  funext e
  exact h e.2 e.1

theorem Bound.put_cell_map {π : Type} (cls : ResourceClass) {layout : Nat → Layout (Bound π)}
    {f : Bound π → Bound π} (h : ∀ i x, (layout i).write (f x) = (layout i).write x)
    (xs : List (Bound π)) : (Bound.cell cls layout).put (xs.map f) = (Bound.cell cls layout).put xs :=
  congrArg (fun b => pure do (← b)) (Cell.put_list_map _ h xs)

/-- A list whose members carry their positions as ids has no more members than there are ids. -/
theorem length_le_of_allShape {α : Type} {shape : Nat → α → Prop} {id : α → UInt32}
    (hid : ∀ i x, shape i x → (id x).toNat = i) {xs : List α} (h : allShape shape xs) :
    xs.length ≤ UInt32.size := by
  rcases Nat.lt_or_ge UInt32.size xs.length with hlt | hle
  · have hlast := hid _ _ (h xs[UInt32.size] UInt32.size
      (List.mk_mem_zipIdx_iff_getElem?.2 (List.getElem?_eq_getElem hlt)))
    have := (id xs[UInt32.size]).toNat_lt
    rw [hlast] at this
    exact absurd this (Nat.lt_irrefl _)
  · exact hle

namespace Registry

theorem write_readOnly (pos : Nat) (x : Bound View) :
    (View.srvLayout pos).write { x with payload := x.payload.readOnly } =
      (View.srvLayout pos).write x := by
  refine Layout.write_congr ?_
  simp [View.srvLayout, Layout.inOrder, Bound.slots, View.slots, Cell.extra, View.readOnly]

theorem write_readWrite (pos : Nat) (x : Bound View) :
    (View.uavLayout pos).write { x with payload := x.payload.readWrite } =
      (View.uavLayout pos).write x := by
  refine Layout.write_congr ?_
  simp [View.uavLayout, Bound.slots, View.slots, Cell.extra, View.readWrite]

/-- What the schema does not keep is not written. -/
theorem write_normal (r : Registry) : layout.write r.normal = layout.write r.renumber := by
  refine Layout.write_congr ?_
  intro f hf
  simp only [layout, Layout.inOrder, List.mem_cons, List.not_mem_nil, or_false] at hf
  rcases hf with rfl | rfl | rfl | rfl
  · exact Bound.put_cell_map _ write_readOnly _
  · exact Bound.put_cell_map _ write_readWrite _
  · rfl
  · rfl

/-! ### Records in normal form fit the schema -/

theorem mem_zipIdx_renumber {π : Type} {xs : List (Bound π)} {x : Bound π} {i : Nat}
    (h : (x, i) ∈ (Bound.renumber xs).zipIdx) (hlen : xs.length ≤ UInt32.size) : x.id.toNat = i := by
  obtain ⟨hi, hx⟩ := List.mem_zipIdx' h
  rw [hx, Bound.id_renumber]
  rw [Bound.length_renumber] at hi
  exact UInt32.toNat_ofNat_of_lt' (Nat.lt_of_lt_of_le hi hlen)

/-- No list has more records than there are ids. -/
structure Bounded (r : Registry) : Prop where
  cbuffers : r.cbuffers.length ≤ UInt32.size
  samplers : r.samplers.length ≤ UInt32.size
  srvs     : r.srvs.length ≤ UInt32.size
  uavs     : r.uavs.length ≤ UInt32.size

theorem placed_normal {r : Registry} (h : r.Bounded) : r.normal.Placed where
  cbuffers x i hx := ⟨mem_zipIdx_renumber hx h.cbuffers, trivial⟩
  samplers x i hx := ⟨mem_zipIdx_renumber hx h.samplers, trivial⟩
  srvs x i hx := by
    simp only [normal, List.zipIdx_map, List.mem_map] at hx
    obtain ⟨⟨y, j⟩, hy, heq⟩ := hx
    cases heq
    exact ⟨mem_zipIdx_renumber (x := y) hy h.srvs, rfl, rfl, rfl, rfl⟩
  uavs x i hx := by
    simp only [normal, List.zipIdx_map, List.mem_map] at hx
    obtain ⟨⟨y, j⟩, hy, heq⟩ := hx
    cases heq
    exact ⟨mem_zipIdx_renumber (x := y) hy h.uavs, rfl, rfl⟩

theorem getElem_placed {π : Type} {kept : π → Prop} {xs : List (Bound π)}
    (h : allShape (Bound.Placed kept) xs) (i : Nat) (hi : i < xs.length) : Bound.Placed kept i xs[i] :=
  h xs[i] i (List.mk_mem_zipIdx_iff_getElem?.2 (List.getElem?_eq_getElem hi))

theorem renumber_of_placed {π : Type} {kept : π → Prop} {xs : List (Bound π)}
    (h : allShape (Bound.Placed kept) xs) : Bound.renumber xs = xs := by
  refine List.ext_getElem (Bound.length_renumber xs) ?_
  intro i hi hi'
  have hid : UInt32.ofNat i = xs[i].id := by
    rw [← UInt32.ofNat_toNat (x := xs[i].id), (getElem_placed h i hi').1]
  simp only [Bound.renumber, List.getElem_mapIdx, hid]

theorem length_le_of_placed {π : Type} {kept : π → Prop} {xs : List (Bound π)}
    (h : allShape (Bound.Placed kept) xs) : xs.length ≤ UInt32.size :=
  length_le_of_allShape (fun _ _ hx => hx.1) h

/-- A registry that fits the schema is in normal form. -/
theorem normal_of_placed {r : Registry} (h : r.Placed) : r.normal = r := by
  have hsrvs : r.srvs.map (fun x => { x with payload := x.payload.readOnly }) = r.srvs := by
    refine List.ext_getElem (by simp) ?_
    intro i hi hi'
    rw [List.getElem_map, View.readOnly_eq (getElem_placed h.srvs i hi').2]
  have huavs : r.uavs.map (fun x => { x with payload := x.payload.readWrite }) = r.uavs := by
    refine List.ext_getElem (by simp) ?_
    intro i hi hi'
    rw [List.getElem_map, View.readWrite_eq (getElem_placed h.uavs i hi').2]
  rw [normal, renumber_of_placed h.cbuffers, renumber_of_placed h.samplers, renumber_of_placed h.srvs,
    renumber_of_placed h.uavs, hsrvs, huavs]

theorem bounded_of_placed {r : Registry} (h : r.Placed) : r.Bounded :=
  ⟨length_le_of_placed h.cbuffers, length_le_of_placed h.samplers, length_le_of_placed h.srvs,
    length_le_of_placed h.uavs⟩

theorem globals_normal (r : Registry) : r.normal.globals = r.globals := by
  have h : ∀ {π : Type} (xs : List (Bound π)),
      (Bound.renumber xs).map (fun x => x.global) = xs.map fun x => x.global := Bound.map_global_renumber
  simp only [globals, normal, List.map_map]
  rw [h, h, ← h r.srvs, ← h r.uavs]
  rfl

end Registry

/-! ## What is entered for each group -/

/-- A group without nodes stands for `absent`; one with a node is read from it. -/
def Program.KeepsRecord {α : Type} (q : Program) (refs : List Entity) (hs : List (Handle .node))
    (absent : α) (read : Source → Handle .node → Except Fault α) (x : α) : Prop :=
  (hs = [] ∧ x = absent) ∨ ∃ h, hs = [h] ∧ q.Keeps refs (fun s => read s h) x

/-- A group without nodes stands for `absent`; one with nodes is read from all of them. -/
def Program.KeepsRecords {α : Type} (q : Program) (refs : List Entity) (hs : List (Handle .node))
    (absent : α) (read : Source → List (Handle .node) → Except Fault α) (x : α) : Prop :=
  (hs = [] ∧ x = absent) ∨ (hs ≠ [] ∧ q.Keeps refs (fun s => read s hs) x)

namespace Tables

/-- The nodes of every group are those that a program keeps some tables in. -/
structure Kept (t : Tables) (q : Program) (nodes : Group → List (Handle .node)) : Prop where
  version : ∃ h major minor, nodes .version = [h] ∧ q.Keeps [] (·.operands h) [major, minor] ∧
    ∀ what, q.Keeps [] (·.word what major) Version.current.major ∧
      q.Keeps [] (·.word what minor) Version.current.minor
  profile : q.KeepsRecord [] (nodes .profile) none (fun s h => some <$> Profile.layout.read s h) t.profile
  entry : q.KeepsRecord t.entryPoint.refs (nodes .entryPoints) .unset EntryPoint.layout.read t.entryPoint
  resources : q.KeepsRecord t.resources.refs (nodes .resources) .empty Registry.layout.read t.resources
  types : q.KeepsRecords (t.types.functions.keys.map .function) (nodes .annotations) .empty TypeSystem.read
    t.types
  props : q.KeepsRecords (t.props.entries.flatMap StageProps.refs) (nodes .functionProps) .empty
    PropsTable.read t.props
  options : q.KeepsRecord [] (nodes .options) .unset Options.read t.options
  resourceTypes : q.KeepsRecord [] (nodes .resourceTypes) .empty
    (fun s => s.readTable ResourceTypes.layout) t.resourceTypes
  rootSignature : q.KeepsRecord [] (nodes .rootSignature) [] rootSignatureLayout.read t.rootSignature
  used : q.KeepsRecords (t.used.map .global) (nodes .used) []
    (fun s hs => hs.mapM fun h => s.global "used global" (some h)) t.used

end Tables

theorem Program.KeepsRecord.extend {α : Type} {p q : Program} {refs : List Entity}
    {hs : List (Handle .node)} {absent : α} {read : Source → Handle .node → Except Fault α} {x : α}
    (h : p.KeepsRecord refs hs absent read x) (hpq : p.Extends q) :
    q.KeepsRecord refs hs absent read x :=
  h.imp_right fun ⟨n, hn, hk⟩ => ⟨n, hn, hk.extend hpq⟩

theorem Program.KeepsRecords.extend {α : Type} {p q : Program} {refs : List Entity}
    {hs : List (Handle .node)} {absent : α} {read : Source → List (Handle .node) → Except Fault α}
    {x : α} (h : p.KeepsRecords refs hs absent read x) (hpq : p.Extends q) :
    q.KeepsRecords refs hs absent read x :=
  h.imp_right fun ⟨hn, hk⟩ => ⟨hn, hk.extend hpq⟩

theorem Build.Growing.of_eq {α : Type} {b : Build α} (hb : Growing b) {p q : Program} {a : α}
    (h : b p = (a, q)) : p.Grows q := by
  have := hb p
  rwa [h] at this

/-- A record that fits is kept in the node it is written to. -/
theorem Layout.Lawful.keepsRecord {ρ : Type} {l : Layout ρ} {shape : ρ → Prop} {refs : ρ → List Entity}
    (hl : l.Lawful shape refs) {x absent : ρ} (hx : shape x) {p q : Program} {n : Handle .node}
    (h : l.write x p = (n, q)) : q.KeepsRecord (refs x) [n] absent l.read x := by
  have := hl.keeps x p hx
  rw [h] at this
  exact .inr ⟨n, rfl, this⟩

theorem Build.bind_eq {α β : Type} {b : Build α} {f : α → Build β} {p q : Program} {r : β}
    (h : (b >>= f) p = (r, q)) : ∃ a p', b p = (a, p') ∧ f a p' = (r, q) :=
  ⟨(b p).1, (b p).2, rfl, h⟩

theorem Build.map_eq {α β : Type} {b : Build α} {f : α → β} {p q : Program} {r : β}
    (h : (f <$> b) p = (r, q)) : ∃ a, b p = (a, q) ∧ r = f a := by
  have hq : (b p).2 = q := congrArg Prod.snd h
  exact ⟨(b p).1, Prod.ext rfl hq, (congrArg Prod.fst h).symm⟩

/-- The version is a pair of words, which can be read before the version is known. -/
theorem Version.keeps_write (p : Program) :
    ∃ major minor, (layout.write current p).2.Keeps [] (·.operands (layout.write current p).1)
      [major, minor] ∧
      ∀ what, (layout.write current p).2.Keeps [] (·.word what major) current.major ∧
        (layout.write current p).2.Keeps [] (·.word what minor) current.minor := by
  obtain ⟨ops, hnode, hlen, hops⟩ := lawful_layout.operands current p
  match ops, hlen with
  | [major, minor], _ =>
    obtain ⟨_, q₀, -, hmajor, h₀⟩ := hops 0 _ major rfl rfl
    obtain ⟨_, q₁, -, hminor, h₁⟩ := hops 1 _ minor rfl rfl
    refine ⟨major, minor, fun s hs _ _ => Source.operands_eq (hs.node? hnode), ?_⟩
    intro what
    rw [hmajor, hminor]
    exact ⟨fun s hs _ _ => Cell.word_wordOperand _ q₀ (h₀.trans hs) what,
      fun s hs _ _ => Cell.word_wordOperand _ q₁ (h₁.trans hs) what⟩

/-- Records that are written one after another are kept together. -/
theorem Layout.keeps_mapM {ρ : Type} {l : Layout ρ} {refs : ρ → List Entity} (hl : l.Lawful anyShape refs)
    (xs : List ρ) (p : Program) :
    List.Forall₂ (fun x n => (xs.mapM l.write p).2.Keeps (refs x) (fun s => l.read s n) x) xs
      (xs.mapM l.write p).1 := by
  refine (Build.made_mapM (fun x _ => hl.growing x) p).imp ?_
  rintro x n ⟨r, -, hr, rfl⟩
  exact (hl.keeps x r trivial).extend hr.toExtends

/-- The profile is kept in a record, or nowhere if there is none. -/
theorem Profile.keeps_write {x : Option Profile} {p q : Program} {hs : List (Handle .node)}
    (h : x.toList.mapM layout.write p = (hs, q)) :
    q.KeepsRecord [] hs none (fun s h => some <$> layout.read s h) x := by
  have hk := Layout.keeps_mapM lawful_layout x.toList p
  rw [h] at hk
  cases x with
  | none =>
    cases hk
    exact .inl ⟨rfl, rfl⟩
  | some x =>
    cases hk with
    | cons hx hnil =>
      cases hnil
      exact .inr ⟨_, rfl, hx.map some⟩

theorem TypeSystem.growing_write (t : TypeSystem) : Build.Growing t.write :=
  .bind (.mapM fun e _ => StructInfo.lawful_layout.growing e) fun _ =>
    .bind (.mapM fun e _ => FunctionInfo.lawful_layout.growing e) fun _ =>
      .bind (Build.growing_node _) fun _ => .bind (Build.growing_node _) fun _ => .pure _

/-- The annotations are kept in two tuples. -/
theorem TypeSystem.keeps_write {t : TypeSystem} (hstructs : t.structs.Sorted)
    (hfunctions : t.functions.Sorted) (p : Program) :
    (t.write p).1 ≠ [] ∧ (t.write p).2.Keeps (t.functions.keys.map .function)
      (fun s => TypeSystem.read s (t.write p).1) t := by
  have hs := Layout.keeps_mapM StructInfo.lawful_layout t.structs.entries p
  rcases h₁ : t.structs.entries.mapM StructInfo.layout.write p with ⟨structs, p₁⟩
  rw [h₁] at hs
  have hf := Layout.keeps_mapM FunctionInfo.lawful_layout t.functions.entries p₁
  have hgrow : p₁.Grows (t.functions.entries.mapM FunctionInfo.layout.write p₁).2 :=
    Build.Growing.mapM (fun e _ => FunctionInfo.lawful_layout.growing e) p₁
  rcases h₂ : t.functions.entries.mapM FunctionInfo.layout.write p₁ with ⟨functions, p₂⟩
  rw [h₂] at hf hgrow
  have hn := Build.node?_node (.tuple (structs.map some)) p₂
  have hgrow' := Build.growing_node (.tuple (structs.map some)) p₂
  rcases h₃ : Build.tuple (structs.map some) p₂ with ⟨n, p₃⟩
  rw [show Build.node (.tuple (structs.map some)) p₂ = (n, p₃) from h₃] at hn hgrow'
  have hm := Build.node?_node (.tuple (functions.map some)) p₃
  have hgrow'' := Build.growing_node (.tuple (functions.map some)) p₃
  rcases h₄ : Build.tuple (functions.map some) p₃ with ⟨m, p₄⟩
  rw [show Build.node (.tuple (functions.map some)) p₃ = (m, p₄) from h₄] at hm hgrow''
  have hw : t.write p = ([n, m], p₄) := by
    simp only [write, bind, StateT.bind, h₁, h₂, h₃, h₄]
    rfl
  rw [hw]
  have hfp : p₂.Extends p₄ := hgrow'.toExtends.trans hgrow''.toExtends
  have hkeys : t.functions.entries.flatMap (fun e => [Entity.function e.1]) =
      t.functions.keys.map .function := by
    rw [Ordered.keys, List.map_map, ← List.flatMap_pure_eq_map]
    rfl
  have hkstructs : p₄.Keeps _ (fun s => s.readTable StructInfo.layout n) t.structs :=
    Source.keeps_readTable hstructs (hgrow''.node? hn)
      (hs.imp fun _ _ h => h.extend (hgrow.toExtends.trans hfp))
  have hkfunctions : p₄.Keeps _ (fun s => s.readTable FunctionInfo.layout m) t.functions :=
    Source.keeps_readTable hfunctions hm (hf.imp fun _ _ h => h.extend hfp)
  rw [hkeys] at hkfunctions
  refine ⟨by simp, ?_⟩
  intro s hext hminor he
  refine bind_eq_ok.2 ⟨t.structs, hkstructs s hext hminor (by simp [noRefs]), ?_⟩
  exact bind_eq_ok.2 ⟨t.functions, hkfunctions s hext hminor he, rfl⟩

theorem ResourceTypes.growing_write (t : ResourceTypes) : Build.Growing (ResourceTypes.write t) :=
  .bind (.mapM fun e _ => ResourceTypes.lawful_layout.growing e) fun _ =>
    .bind (Cell.growing_listOperand _) fun _ => .pure _

/-- The annotated types are kept in a tuple, or nowhere if there are none. -/
theorem ResourceTypes.keeps_write {t : ResourceTypes} (ht : Ordered.Sorted t) (p : Program) :
    (ResourceTypes.write t p).2.KeepsRecord [] (ResourceTypes.write t p).1 .empty
      (fun s => s.readTable ResourceTypes.layout) t := by
  have hs := Layout.keeps_mapM ResourceTypes.lawful_layout t.entries p
  rcases h₁ : t.entries.mapM ResourceTypes.layout.write p with ⟨hs', p₁⟩
  rw [h₁] at hs
  have hw : ResourceTypes.write t p =
      ((Cell.listOperand hs' p₁).1.toList, (Cell.listOperand hs' p₁).2) := by
    simp only [ResourceTypes.write, bind, StateT.bind, h₁]
    rfl
  rw [hw]
  cases hs' with
  | nil =>
    left
    obtain ⟨es⟩ := t
    cases hs
    exact ⟨rfl, rfl⟩
  | cons n ns =>
    right
    have hn := Build.node?_node (.tuple ((n :: ns).map some)) p₁
    have hgrow := Build.growing_node (.tuple ((n :: ns).map some)) p₁
    refine ⟨(Build.tuple ((n :: ns).map some) p₁).1, rfl, ?_⟩
    have hk := Source.keeps_readTable ht hn (hs.imp fun _ _ h => h.extend hgrow.toExtends)
    exact hk.mono (.refl _) (by simp [noRefs])

theorem PropsTable.growing_write (t : PropsTable) :
    Build.Growing (t.entries.mapM fun e => StageProps.write e.1 e.2) :=
  .mapM fun e _ => StageProps.growing_write e.1 e.2

/-- The properties of functions are kept in one record for each. -/
theorem PropsTable.keeps_write {t : PropsTable} (ht : Ordered.Sorted t) {p q : Program}
    {hs : List (Handle .node)}
    (hw : t.entries.mapM (fun e => StageProps.write e.1 e.2) p = (hs, q)) :
    q.KeepsRecords (t.entries.flatMap StageProps.refs) hs .empty PropsTable.read t := by
  have hmade := Build.made_mapM (fun e (_ : e ∈ t.entries) => StageProps.growing_write e.1 e.2) p
  rw [hw] at hmade
  have hk : List.Forall₂ (fun n e => q.Keeps (StageProps.refs e) (fun s => StageProps.read s n) e) hs
      t.entries := by
    refine hmade.flip.imp ?_
    rintro n e ⟨r, -, hr, rfl⟩
    exact (StageProps.keeps_write e.1 e.2 r).extend hr.toExtends
  have hread : q.Keeps (t.entries.flatMap StageProps.refs) (fun s => PropsTable.read s hs) t := by
    intro s hext hm he
    have := foldlM_insert (m := .empty) (Program.Keeps.forall₂ hk hext hm he)
    rw [Ordered.foldl_insert_entries ht] at this
    exact this
  cases hs with
  | nil =>
    left
    obtain ⟨es⟩ := t
    cases hk
    exact ⟨rfl, rfl⟩
  | cons n ns => exact .inr ⟨List.cons_ne_nil _ _, hread⟩

/-- The globals in use are kept in one node for each. -/
theorem keeps_used {gs : List (Handle .global)} {p q : Program} {hs : List (Handle .node)}
    (hw : gs.mapM (fun g => Build.value (.global g)) p = (hs, q)) :
    q.KeepsRecords (gs.map .global) hs []
      (fun s hs => hs.mapM fun h => s.global "used global" (some h)) gs := by
  have hmade := Build.made_mapM (fun g (_ : g ∈ gs) => Build.growing_node (.value (.global g))) p
  rw [show gs.mapM (fun g => Build.node (.value (.global g))) p = (hs, q) from hw] at hmade
  have hk : List.Forall₂
      (fun n g => q.Keeps [.global g] (fun s => s.global "used global" (some n)) g) hs gs := by
    refine hmade.flip.imp ?_
    rintro n g ⟨r, -, hr, rfl⟩ s hext _ he
    exact Cell.global_valueOperand g r (hr.toExtends.trans hext) (he _ List.mem_cons_self) _
  have hread := Program.Keeps.mapM hk
  cases hs with
  | nil =>
    left
    cases hk
    exact ⟨rfl, rfl⟩
  | cons n ns =>
    refine .inr ⟨List.cons_ne_nil _ _, hread.mono (.refl _) ?_⟩
    intro e he
    obtain ⟨g, hg, he⟩ := List.mem_flatMap.1 he
    exact List.mem_map.2 ⟨g, hg, (List.mem_singleton.1 he).symm⟩

namespace Options

/-- Without reserved bits, all bits are known. -/
theorem and_known {bits : UInt32} (h : reserved bits = 0) : bits &&& known = bits := by
  rw [← UInt32.toBitVec_inj] at h ⊢
  ext i hi
  have hbit := congrArg (fun v : BitVec 32 => v[i]) h
  simp only [reserved, UInt32.toBitVec_and, UInt32.toBitVec_not, BitVec.getElem_and,
    BitVec.getElem_not] at hbit ⊢
  revert hbit
  cases bits.toBitVec[i] <;> cases known.toBitVec[i] <;> simp

/-- The known bits of a word have no reserved ones among them. -/
theorem reserved_and_known (bits : UInt32) : reserved (bits &&& known) = 0 := by
  rw [reserved, UInt32.and_assoc, UInt32.and_not_self, UInt32.and_zero]

theorem keeps_write {x : Options} (hx : reserved x.bits = 0) (p : Program) :
    (layout.write x p).2.Keeps [] (fun s => Options.read s (layout.write x p).1) x := by
  intro s hext hm he
  have hread := lawful_layout.keeps x p trivial s hext hm (by simp [noRefs])
  refine bind_eq_ok.2 ⟨x, hread, ?_⟩
  simp only [ofBits?, ofBitsKnown, hx, and_known hx, if_true]
  split <;> rfl

end Options

/-! ## What is in the entries afterwards -/

namespace Tables

theorem named?_setGroup (p : Program) (g : Group × List (Handle .node)) (h : Group) :
    (setGroup p g).named? h.name =
      if h = g.1 then (if g.2.isEmpty then none else some g.2) else p.named? h.name := by
  have hname : h.name = g.1.name ↔ h = g.1 := ⟨Group.name_injective, fun heq => heq ▸ rfl⟩
  unfold setGroup
  split
  · next hnil =>
    simp only [Program.removeNamed, Program.named?, Ordered.find?_erase, hname]
  · next hnil =>
    simp only [Program.setNamed, Program.named?, Ordered.find?_insert, hname]

/-- Once its turn has come, the entry of a group holds the nodes of the group. -/
theorem named?_foldl_setGroup (nodes : Group → List (Handle .node)) (h : Group) :
    ∀ (gs : List Group) (p : Program),
      (h ∈ gs ∨ p.named? h.name = if (nodes h).isEmpty then none else some (nodes h)) →
      ((gs.map fun g => (g, nodes g)).foldl setGroup p).named? h.name =
        if (nodes h).isEmpty then none else some (nodes h)
  | [], _, hp => hp.resolve_left List.not_mem_nil
  | g :: gs, p, hp => by
    refine named?_foldl_setGroup nodes h gs _ ?_
    rw [named?_setGroup]
    by_cases hg : h = g
    · subst hg
      simp
    · simpa [hg] using hp

/-- Setting groups changes nothing but the named entries. -/
theorem foldl_setGroup_rest (gs : List (Group × List (Handle .node))) (p : Program) :
    ∃ named, gs.foldl setGroup p = { p with named } := by
  induction gs generalizing p with
  | nil => exact ⟨p.named, rfl⟩
  | cons g gs ih =>
    have hg : ∃ named, setGroup p g = { p with named } := by
      unfold setGroup
      split
      · exact ⟨_, rfl⟩
      · exact ⟨_, rfl⟩
    obtain ⟨named, hg⟩ := hg
    rw [List.foldl_cons, hg]
    exact ih _

/-! ## Writing -/

/-- Tables that can be found again: the maps are in order, elements have their positions as ids, no
reserved bit is set, and there are no more records than ids. -/
structure WellFormed (t : Tables) : Prop where
  structs       : t.types.structs.Sorted
  functions     : t.types.functions.Sorted
  props         : Ordered.Sorted t.props
  resourceTypes : Ordered.Sorted t.resourceTypes
  signatures    : t.signatures.Placed
  options       : Options.reserved t.options.bits = 0
  resources     : t.resources.Bounded

/-- The nodes of the groups, in the order in which they are written. -/
def nodesOf (version entry resources options : Handle .node)
    (profile annotations props resourceTypes rootSignature used : List (Handle .node)) :
    Group → List (Handle .node)
  | .version => [version]
  | .profile => profile
  | .entryPoints => [entry]
  | .resources => [resources]
  | .annotations => annotations
  | .functionProps => props
  | .options => [options]
  | .resourceTypes => resourceTypes
  | .rootSignature => rootSignature
  | .used => used

/-- What is built keeps the tables in normal form. -/
theorem kept_build {t : Tables} (ht : t.WellFormed) (p : Program) :
    ∃ nodes, (t.build p).1 = Group.all.map (fun g => (g, nodes g)) ∧ p.Grows (t.build p).2 ∧
      (t.normal p).Kept (t.build p).2 nodes := by
  rcases hbuild : t.build p with ⟨groups, q⟩
  obtain ⟨version, p₁, h₁, h⟩ := Build.bind_eq hbuild
  obtain ⟨profile, p₂, h₂, h⟩ := Build.bind_eq h
  obtain ⟨entry, p₃, h₃, h⟩ := Build.bind_eq h
  obtain ⟨resources, p₄, h₄, h⟩ := Build.bind_eq h
  obtain ⟨annotations, p₅, h₅, h⟩ := Build.bind_eq h
  obtain ⟨props, p₆, h₆, h⟩ := Build.bind_eq h
  obtain ⟨options, p₇, h₇, h⟩ := Build.bind_eq h
  obtain ⟨resourceTypes, p₈, h₈, h⟩ := Build.bind_eq h
  have hversion := Version.keeps_write p
  obtain ⟨rootSignature, p₉, h₉, k₉, h⟩ : ∃ rs p₉, p₈.Grows p₉ ∧
      p₉.KeepsRecord [] rs [] rootSignatureLayout.read t.rootSignature ∧
      (do
        let used ← t.used.mapM fun g => Build.value (.global g)
        return Group.all.map fun g => (g, nodesOf version entry resources options profile annotations
          props resourceTypes rs used g)) p₉ = (groups, q) := by
    split at h
    · next hnil =>
      exact ⟨[], p₈, .refl _, .inl ⟨rfl, List.isEmpty_iff.1 hnil⟩, h⟩
    · obtain ⟨rs, p₉, h₉, h⟩ := Build.bind_eq h
      obtain ⟨n, hn, rfl⟩ := Build.map_eq h₉
      exact ⟨[n], p₉, (lawful_rootSignatureLayout.growing _).of_eq hn,
        lawful_rootSignatureLayout.keepsRecord trivial hn, h⟩
  obtain ⟨used, p₁₀, h₁₀, h⟩ := Build.bind_eq h
  cases h
  have hprofile := Profile.keeps_write h₂
  have hresources : p₄.KeepsRecord t.resources.normal.refs [resources] .empty Registry.layout.read
      t.resources.normal := by
    rw [← Registry.write_normal] at h₄
    exact Registry.lawful_layout.keepsRecord (Registry.placed_normal ht.resources) h₄
  have htypes := TypeSystem.keeps_write ht.structs ht.functions p₄
  have hresourceTypes := ResourceTypes.keeps_write ht.resourceTypes p₇
  have hoptions := Options.keeps_write ht.options p₆
  rw [h₁] at hversion
  rw [h₅] at htypes
  rw [h₈] at hresourceTypes
  rw [h₇] at hoptions
  have g₁₀ : p₉.Grows q := (Build.Growing.mapM fun g _ => Build.growing_node _).of_eq h₁₀
  have g₉ := h₉.trans g₁₀
  have g₈ := ((ResourceTypes.growing_write _).of_eq h₈).trans g₉
  have g₇ := ((Options.lawful_layout.growing _).of_eq h₇).trans g₈
  have g₆ := ((PropsTable.growing_write _).of_eq h₆).trans g₇
  have g₅ := ((TypeSystem.growing_write _).of_eq h₅).trans g₆
  have g₄ := ((Registry.lawful_layout.growing _).of_eq h₄).trans g₅
  have g₃ := ((EntryPoint.lawful_layout.growing _).of_eq h₃).trans g₄
  have g₂ := ((Build.Growing.mapM fun x _ => Profile.lawful_layout.growing x).of_eq h₂).trans g₃
  have g₁ := ((Version.lawful_layout.growing _).of_eq h₁).trans g₂
  refine ⟨nodesOf version entry resources options profile annotations props resourceTypes rootSignature
    used, rfl, g₁, ?_⟩
  constructor
  case version =>
    obtain ⟨major, minor, hops, hwords⟩ := hversion
    exact ⟨version, major, minor, rfl, hops.extend g₂.toExtends,
      fun what => ⟨(hwords what).1.extend g₂.toExtends, (hwords what).2.extend g₂.toExtends⟩⟩
  case profile => exact hprofile.extend g₃.toExtends
  case entry => exact (EntryPoint.lawful_layout.keepsRecord ht.signatures h₃).extend g₄.toExtends
  case resources => exact hresources.extend g₅.toExtends
  case types => exact .inr ⟨htypes.1, htypes.2.extend g₆.toExtends⟩
  case props => exact (PropsTable.keeps_write ht.props h₆).extend g₇.toExtends
  case options => exact .inr ⟨options, rfl, hoptions.extend g₈.toExtends⟩
  case resourceTypes => exact hresourceTypes.extend g₉.toExtends
  case rootSignature => exact k₉.extend g₁₀.toExtends
  case used => exact keeps_used h₁₀

/-! ## Reading -/

/-- Everything that the tables refer to is in the program. -/
structure Live (t : Tables) (p : Program) : Prop where
  entry     : ∀ e ∈ t.entryPoint.refs, p.has e
  resources : ∀ e ∈ t.resources.refs, p.has e
  props     : ∀ e ∈ t.props.entries.flatMap StageProps.refs, p.has e
  types     : ∀ e ∈ t.types.functions.keys.map Entity.function, p.has e
  used      : ∀ e ∈ t.used.map Entity.global, p.has e

theorem map_references (t : Tables) :
    t.references.map Prod.snd = t.entryPoint.refs ++ t.resources.refs ++
      t.props.entries.flatMap StageProps.refs ++ t.types.functions.keys.map Entity.function ++
        t.used.map Entity.global := by
  simp only [references, List.map_append, List.map_map, List.map_flatMap]
  rfl

theorem dangling?_eq_none {t : Tables} {p : Program} :
    t.dangling? p = none ↔ ∀ e ∈ t.references.map Prod.snd, p.has e := by
  simp only [dangling?, List.find?_eq_none, List.forall_mem_map]
  exact forall₂_congr fun r _ => by simp

/-- The tables can be written if all they refer to is there, and only then. -/
theorem dangling?_eq_none_iff {t : Tables} {p : Program} : t.dangling? p = none ↔ t.Live p := by
  rw [dangling?_eq_none, map_references]
  simp only [List.mem_append]
  constructor
  · intro h
    exact ⟨fun e he => h e (.inl (.inl (.inl (.inl he)))), fun e he => h e (.inl (.inl (.inl (.inr he)))),
      fun e he => h e (.inl (.inl (.inr he))), fun e he => h e (.inl (.inr he)), fun e he => h e (.inr he)⟩
  · rintro h e ((((he | he) | he) | he) | he)
    · exact h.entry e he
    · exact h.resources e he
    · exact h.props e he
    · exact h.types e he
    · exact h.used e he

/-- Tables that can be written are. -/
theorem exists_emit {t : Tables} {p : Program} (h : t.dangling? p = none) : ∃ q, t.emit p = .ok () q := by
  unfold emit
  rw [h]
  exact ⟨_, rfl⟩

/-- What is read of a group whose entry holds its nodes. -/
theorem readGroup_eq {α : Type} {q : Program} {g : Group} {hs : List (Handle .node)} {absent x : α}
    {refs : List Entity} {read : Source → Handle .node → Except Fault α}
    (hk : q.KeepsRecord refs hs absent read x) {s : Source} (hext : q.Extends s.program)
    (hm : Version.current.minor ≤ s.minor) (he : ∀ e ∈ refs, s.program.has e)
    (hnamed : s.program.named? g.name = if hs.isEmpty then none else some hs) :
    s.program.readGroup g absent (read s) = .ok x := by
  rcases hk with ⟨rfl, rfl⟩ | ⟨h, rfl, hk⟩
  · simp only [Program.readGroup, Program.single?, hnamed]
    rfl
  · have hread : read s h = .ok x := hk s hext hm he
    simp only [Program.readGroup, Program.single?, hnamed, List.isEmpty_cons, Bool.false_eq_true, if_false,
      bind, Except.bind, hread]
    rfl

theorem readOperands_eq {α : Type} {q : Program} {g : Group} {hs : List (Handle .node)} {absent x : α}
    {refs : List Entity} {read : Source → List (Handle .node) → Except Fault α}
    (hk : q.KeepsRecords refs hs absent read x) {s : Source} (hext : q.Extends s.program)
    (hm : Version.current.minor ≤ s.minor) (he : ∀ e ∈ refs, s.program.has e)
    (hnamed : s.program.named? g.name = if hs.isEmpty then none else some hs) :
    s.program.readOperands g absent (read s) = .ok x := by
  rcases hk with ⟨rfl, rfl⟩ | ⟨hne, hk⟩
  · simp only [Program.readOperands, hnamed]
    rfl
  · have hread : read s hs = .ok x := hk s hext hm he
    have : hs.isEmpty = false := List.isEmpty_eq_false_iff.2 hne
    simp only [Program.readOperands, hnamed, this, Bool.false_eq_true, if_false, hread]
    rfl

/-- The version that is kept is the current one. -/
theorem readVersion_eq {t : Tables} {q r : Program} {nodes : Group → List (Handle .node)}
    (hk : t.Kept q nodes) (hext : q.Extends r)
    (hnamed : ∀ g : Group, r.named? g.name = if (nodes g).isEmpty then none else some (nodes g)) :
    r.readVersion = .ok .current := by
  obtain ⟨h, major, minor, hnode, hops, hwords⟩ := hk.version
  have hsingle : r.single? .version = .ok (some h) := by
    simp only [Program.single?, hnamed, hnode, List.isEmpty_cons, Bool.false_eq_true, if_false]
  have hs := hops ⟨r, Version.current.minor⟩ hext (UInt32.le_refl _) (by simp)
  have hmajor := (hwords "major version").1 ⟨r, Version.current.minor⟩ hext (UInt32.le_refl _) (by simp)
  have hminor := (hwords "minor version").2 ⟨r, Version.current.minor⟩ hext (UInt32.le_refl _) (by simp)
  simp only at hs hmajor hminor
  have hrecord : Source.record ⟨r, Version.current.minor⟩ "version" 2 h = .ok [major, minor] := by
    simp [Source.record, hs, bind, Except.bind, pure, Except.pure]
  simp only [Program.readVersion, hsingle, Program.within, Except.mapError, bind, Except.bind, hs, hmajor,
    hminor, hrecord]
  rfl

/-- Tables that are kept, and whose groups are in the entries, are loaded. -/
theorem load_of_kept {t : Tables} {q r : Program} {nodes : Group → List (Handle .node)}
    (hk : t.Kept q nodes) (hext : q.Extends r)
    (hnamed : ∀ g : Group, r.named? g.name = if (nodes g).isEmpty then none else some (nodes g))
    (hlive : t.Live r) (hshared : t.shared = r.sharedGlobals) : load r = .ok t := by
  have hm : Version.current.minor ≤ Version.current.minor := UInt32.le_refl _
  have hversion := readVersion_eq hk hext hnamed
  let s : Source := ⟨r, Version.current.minor⟩
  have hprofile := readGroup_eq (s := s) hk.profile hext hm (by simp) (hnamed .profile)
  have hentry := readGroup_eq (s := s) hk.entry hext hm hlive.entry (hnamed .entryPoints)
  have hresources := readGroup_eq (s := s) hk.resources hext hm hlive.resources (hnamed .resources)
  have htypes := readOperands_eq (s := s) hk.types hext hm hlive.types (hnamed .annotations)
  have hprops := readOperands_eq (s := s) hk.props hext hm hlive.props (hnamed .functionProps)
  have hoptions := readGroup_eq (s := s) hk.options hext hm (by simp) (hnamed .options)
  have hresourceTypes := readGroup_eq (s := s) hk.resourceTypes hext hm (by simp) (hnamed .resourceTypes)
  have hroot := readGroup_eq (s := s) hk.rootSignature hext hm (by simp) (hnamed .rootSignature)
  have hused := readOperands_eq (s := s) hk.used hext hm hlive.used (hnamed .used)
  refine bind_eq_ok.2 ⟨_, hversion, bind_eq_ok.2 ⟨_, hprofile, bind_eq_ok.2 ⟨_, hentry, ?_⟩⟩⟩
  refine bind_eq_ok.2 ⟨_, hresources, bind_eq_ok.2 ⟨_, htypes, bind_eq_ok.2 ⟨_, hprops, ?_⟩⟩⟩
  refine bind_eq_ok.2 ⟨_, hoptions, bind_eq_ok.2 ⟨_, hresourceTypes, bind_eq_ok.2 ⟨_, hroot, ?_⟩⟩⟩
  refine bind_eq_ok.2 ⟨_, hused, ?_⟩
  rw [← hshared]
  rfl

/-- A program that tables were written into keeps them in normal form, in the entries of the groups, and
has the entities that it had before. -/
theorem kept_of_emit {t : Tables} (ht : t.WellFormed) {p q : Program} (h : t.emit p = .ok () q) :
    ∃ nodes r, (t.normal p).Kept r nodes ∧ r.Extends q ∧
      (∀ g : Group, q.named? g.name = if (nodes g).isEmpty then none else some (nodes g)) ∧
      q.globals = p.globals ∧ q.functions = p.functions ∧ t.Live p := by
  unfold emit at h
  split at h
  · cases h
  · next hnone =>
    obtain ⟨nodes, hnodes, hgrow, hkept⟩ := kept_build ht p
    generalize t.build p = b at h hnodes hgrow hkept
    obtain ⟨groups, r⟩ := b
    obtain ⟨-, hq⟩ := EStateM.Result.ok.inj h
    simp only at hnodes hgrow hkept
    rw [hnodes] at hq
    obtain ⟨named, hrest⟩ := foldl_setGroup_rest (Group.all.map fun g => (g, nodes g)) r
    rw [hq] at hrest
    refine ⟨nodes, r, hkept, ?_, ?_, ?_, ?_, dangling?_eq_none_iff.1 hnone⟩
    · rw [hrest]
      exact ⟨List.prefix_refl _, List.prefix_refl _, List.prefix_refl _⟩
    · intro g
      rw [← hq]
      exact named?_foldl_setGroup nodes g Group.all _ (.inl (Group.mem_all g))
    · rw [hrest]
      exact hgrow.globals
    · rw [hrest]
      exact hgrow.functions

/-- The version that is written is the current one. -/
theorem readVersion_of_emit {t : Tables} (ht : t.WellFormed) {p q : Program} (h : t.emit p = .ok () q) :
    q.readVersion = .ok .current := by
  obtain ⟨nodes, r, hkept, hext, hnamed, -⟩ := kept_of_emit ht h
  exact readVersion_eq hkept hext hnamed

/-- Tables that are written are found again in normal form. -/
theorem load_of_emit {t : Tables} (ht : t.WellFormed) {p q : Program} (h : t.emit p = .ok () q) :
    load q = .ok (t.normal p) := by
  obtain ⟨nodes, r, hkept, hext, hnamed, hglobals, hfunctions, hlive⟩ := kept_of_emit ht h
  have hhas : ∀ e, q.has e = p.has e := by
    intro e
    cases e with
    | global g => simp only [Program.has, Program.hasGlobal, Program.global?, hglobals]
    | function f => simp only [Program.has, Program.hasFunction, Program.function?, hfunctions]
  refine load_of_kept hkept hext hnamed ?_ ?_
  · constructor
    case resources =>
      intro e he
      rw [normal, Registry.refs, Registry.globals_normal] at he
      rw [hhas]
      exact hlive.resources e he
    case entry => exact fun e he => (hhas e).trans (hlive.entry e he)
    case props => exact fun e he => (hhas e).trans (hlive.props e he)
    case types => exact fun e he => (hhas e).trans (hlive.types e he)
    case used => exact fun e he => (hhas e).trans (hlive.used e he)
  · simp only [normal, Program.sharedGlobals, Program.global?, hglobals]

/-! ## What can be loaded can be written -/

theorem within_eq_ok {α : Type} {g : Group} {x : Except Fault α} {a : α} :
    Program.within g x = .ok a ↔ x = .ok a := by
  cases x with
  | error e => simp [Program.within, Except.mapError]
  | ok b => simp [Program.within, Except.mapError]

theorem eq_absent_or_read {α : Type} {p : Program} {g : Group} {absent x : α}
    {read : Handle .node → Except Fault α} (h : p.readGroup g absent read = .ok x) :
    x = absent ∨ ∃ n, read n = .ok x := by
  obtain ⟨found, -, h⟩ := bind_eq_ok.1 (within_eq_ok.1 h)
  cases found with
  | none => exact .inl (Except.ok.inj h).symm
  | some n => exact .inr ⟨n, h⟩

theorem eq_absent_or_reads {α : Type} {p : Program} {g : Group} {absent x : α}
    {read : List (Handle .node) → Except Fault α} (h : p.readOperands g absent read = .ok x) :
    x = absent ∨ ∃ hs, read hs = .ok x := by
  have h := within_eq_ok.1 h
  split at h
  · next hs _ => exact .inr ⟨hs, h⟩
  · exact .inl (Except.ok.inj h).symm

theorem reads_types {s : Source} {hs : List (Handle .node)} {t : TypeSystem}
    (h : TypeSystem.read s hs = .ok t) :
    t.structs.Sorted ∧ t.functions.Sorted ∧
      ∀ e ∈ t.functions.keys.map Entity.function, s.program.has e := by
  unfold TypeSystem.read at h
  split at h
  · obtain ⟨structs, hstructs, h⟩ := bind_eq_ok.1 h
    obtain ⟨functions, hfunctions, h⟩ := bind_eq_ok.1 h
    cases h
    obtain ⟨hsorted, hrefs⟩ := Source.reads_readTable FunctionInfo.lawful_layout hfunctions
    refine ⟨(Source.reads_readTable StructInfo.lawful_layout hstructs).1, hsorted, ?_⟩
    intro e he
    simp only [Ordered.keys, List.map_map, List.mem_map] at he
    obtain ⟨x, hx, rfl⟩ := he
    exact hrefs x hx _ List.mem_cons_self
  · cases h

theorem reads_props {s : Source} {hs : List (Handle .node)} {t : PropsTable}
    (h : PropsTable.read s hs = .ok t) :
    Ordered.Sorted t ∧ ∀ e ∈ t.entries.flatMap StageProps.refs, s.program.has e := by
  obtain ⟨hsorted, hrefs⟩ := sorted_of_foldlM (P := fun e => ∀ r ∈ StageProps.refs e, s.program.has r)
    (fun n e he => StageProps.reads_refs he) h Ordered.sorted_empty (by simp [Ordered.empty])
  refine ⟨hsorted, ?_⟩
  intro r hr
  obtain ⟨e, he, hr⟩ := List.mem_flatMap.1 hr
  exact hrefs e he r hr

theorem reads_options {s : Source} {n : Handle .node} {x : Options} (h : Options.read s n = .ok x) :
    Options.reserved x.bits = 0 := by
  obtain ⟨y, -, h⟩ := bind_eq_ok.1 h
  split at h
  · cases h
    exact Options.reserved_and_known _
  · unfold Options.ofBits? at h
    split at h
    · next heq =>
      split at heq
      · next hbits =>
        cases heq
        cases h
        exact hbits
      · cases heq
    · cases h

/-- Tables that were loaded can be found again as they are, and all they refer to is there. -/
theorem wellFormed_of_load {p : Program} {t : Tables} (h : load p = .ok t) :
    t.WellFormed ∧ t.normal p = t ∧ t.Live p := by
  obtain ⟨version, -, h⟩ := bind_eq_ok.1 h
  obtain ⟨profile, -, h⟩ := bind_eq_ok.1 h
  obtain ⟨entry, hentry, h⟩ := bind_eq_ok.1 h
  obtain ⟨resources, hresources, h⟩ := bind_eq_ok.1 h
  obtain ⟨types, htypes, h⟩ := bind_eq_ok.1 h
  obtain ⟨props, hprops, h⟩ := bind_eq_ok.1 h
  obtain ⟨options, hoptions, h⟩ := bind_eq_ok.1 h
  obtain ⟨resourceTypes, hresourceTypes, h⟩ := bind_eq_ok.1 h
  obtain ⟨rootSignature, -, h⟩ := bind_eq_ok.1 h
  obtain ⟨used, hused, h⟩ := bind_eq_ok.1 h
  cases h
  let s : Source := ⟨p, version.minor⟩
  have hsignatures : entry.signatures.Placed ∧ ∀ e ∈ entry.refs, p.has e := by
    rcases eq_absent_or_read hentry with rfl | ⟨n, hn⟩
    · refine ⟨?_, by simp [EntryPoint.unset, EntryPoint.refs]⟩
      rintro (_ | _ | _) x i hx
      all_goals cases hx
    · exact EntryPoint.lawful_layout.reads s n entry hn
  have hregistry : resources.Placed ∧ ∀ e ∈ resources.refs, p.has e := by
    rcases eq_absent_or_read hresources with rfl | ⟨n, hn⟩
    · refine ⟨⟨?_, ?_, ?_, ?_⟩, by simp [Registry.refs, Registry.globals, Registry.empty]⟩
      all_goals
        intro x i hx
        cases hx
    · exact Registry.lawful_layout.reads s n resources hn
  have htables : types.structs.Sorted ∧ types.functions.Sorted ∧
      ∀ e ∈ types.functions.keys.map Entity.function, p.has e := by
    rcases eq_absent_or_reads htypes with rfl | ⟨hs, hn⟩
    · exact ⟨.nil, .nil, by simp [TypeSystem.empty, Ordered.empty, Ordered.keys]⟩
    · exact reads_types hn
  have hstages : Ordered.Sorted props ∧ ∀ e ∈ props.entries.flatMap StageProps.refs, p.has e := by
    rcases eq_absent_or_reads hprops with rfl | ⟨hs, hn⟩
    · exact ⟨.nil, by simp [Ordered.empty]⟩
    · exact reads_props hn
  have hbits : Options.reserved options.bits = 0 := by
    rcases eq_absent_or_read hoptions with rfl | ⟨n, hn⟩
    · decide
    · exact reads_options hn
  have hsorted : Ordered.Sorted resourceTypes := by
    rcases eq_absent_or_read hresourceTypes with rfl | ⟨n, hn⟩
    · exact .nil
    · exact (Source.reads_readTable ResourceTypes.lawful_layout hn).1
  have hlive : ∀ e ∈ used.map Entity.global, p.has e := by
    rcases eq_absent_or_reads hused with rfl | ⟨hs, hn⟩
    · simp
    · intro e he
      obtain ⟨g, hg, rfl⟩ := List.mem_map.1 he
      obtain ⟨n, -, hr⟩ := exists_forall₂ (mapM_eq_ok.1 hn) hg
      exact (Source.global_eq_ok.1 hr).2
  refine ⟨⟨htables.1, htables.2.1, hstages.1, hsorted, hsignatures.1, hbits,
    Registry.bounded_of_placed hregistry.1⟩, ?_, ?_⟩
  · simp only [normal, Registry.normal_of_placed hregistry.1]
  · exact ⟨hsignatures.2, hregistry.2, hstages.2, htables.2.2, hlive⟩

end Tables

end ShaderModule
