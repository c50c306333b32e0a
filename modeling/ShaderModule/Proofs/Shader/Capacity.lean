import ShaderModule.Proofs.Record.Emission
import ShaderModule.Proofs.Record.Loading
import ShaderModule.Proofs.Shader.RoundTrip
import ShaderModule.Proofs.Table.Interned

/-!
# What fits into a program

The records of a list begin with words that tell them apart, so each of them takes up a node of its own.
A program with no more nodes than there are handles has no list with more records than there are ids, and
what is read from a program has no longer lists than fitted into it.
-/

namespace ShaderModule

/-! ## Records that begin with a word -/

namespace Program

variable {p : Program} {h : Handle .node} {n m : UInt32}

/-- A node is a tuple that begins with a word. -/
def Begins (p : Program) (h : Handle .node) (n : UInt32) : Prop :=
  ∃ first rest, p.tuple? (some h) = some (first :: rest) ∧ p.word? first = some n

theorem Begins.unique (hn : p.Begins h n) (hm : p.Begins h m) : n = m := by
  obtain ⟨first, rest, htuple, hword⟩ := hn
  obtain ⟨first', rest', htuple', hword'⟩ := hm
  rw [htuple] at htuple'
  cases htuple'
  rw [hword] at hword'
  exact Option.some.inj hword'

theorem node?_of_tuple? {xs : List Operand} (hx : p.tuple? (some h) = some xs) :
    p.node? h = some (.tuple xs) := by
  simp only [tuple?] at hx
  split at hx
  · next hnode =>
    cases hx
    exact hnode
  · cases hx

/-- The node of the word is another one than those of tuples. -/
theorem Begins.exists_scalar (hn : p.Begins h n) :
    ∃ w : Handle .node, (p.node? w).isSome ∧ p.tuple? (some w) = none := by
  obtain ⟨first, rest, -, hword⟩ := hn
  cases first with
  | none => cases hword
  | some w =>
    refine ⟨w, ?_⟩
    cases hw : p.node? w with
    | none => simp [word?, content?, hw] at hword
    | some node =>
      cases node with
      | tuple xs => simp [word?, content?, held, hw] at hword
      | string text => simp [tuple?, hw]
      | value v => simp [tuple?, hw]

/-- Nodes that begin with their positions are different. -/
theorem nodup_of_begins {hs : List (Handle .node)} (hlen : hs.length ≤ UInt32.size)
    (hbegins : ∀ i h, hs[i]? = some h → p.Begins h (UInt32.ofNat i)) : hs.Nodup := by
  rw [List.nodup_iff_getElem?_ne_getElem?]
  intro i j hij hj heq
  have hbj := hbegins j hs[j] (List.getElem?_eq_getElem hj)
  have hbi := hbegins i hs[j] (heq.trans (List.getElem?_eq_getElem hj))
  have hword := congrArg UInt32.toNat (hbi.unique hbj)
  rw [UInt32.toNat_ofNat_of_lt' (by omega), UInt32.toNat_ofNat_of_lt' (by omega)] at hword
  omega

/-- In a program with no more nodes than there are words, nodes that begin with their positions are no
more either, for one node is left for the word that a node begins with. -/
theorem length_le_of_begins {hs : List (Handle .node)}
    (hbegins : ∀ i h, hs[i]? = some h → p.Begins h (UInt32.ofNat i))
    (hp : p.nodes.entries.length ≤ UInt32.size) : hs.length ≤ UInt32.size := by
  -- Otherwise there are as many nodes as words and all words differ. The word that the first node begins with
  -- is a node too, but begins with none, so it is one more.
  by_contra hlt
  have hlen : (hs.take UInt32.size).length = UInt32.size := by
    rw [List.length_take]
    omega
  have htake : ∀ i h, (hs.take UInt32.size)[i]? = some h → p.Begins h (UInt32.ofNat i) := by
    intro i h hi
    rw [List.getElem?_take_of_lt (hlen ▸ (List.getElem?_eq_some_iff.1 hi).1)] at hi
    exact hbegins i h hi
  generalize hs.take UInt32.size = ks at hlen htake
  have htuple : ∀ h ∈ ks, ∃ xs, p.tuple? (some h) = some xs := by
    intro h hh
    obtain ⟨i, hi⟩ := List.mem_iff_getElem?.1 hh
    obtain ⟨first, rest, hx, -⟩ := htake i h hi
    exact ⟨_, hx⟩
  have hpos : 0 < ks.length := hlen ▸ Nat.two_pow_pos 32
  obtain ⟨w, hw, hnone⟩ := (htake 0 ks[0] (List.getElem?_eq_getElem hpos)).exists_scalar
  have hfresh : w ∉ ks := by
    intro hmem
    obtain ⟨xs, hxs⟩ := htuple w hmem
    rw [hnone] at hxs
    cases hxs
  have hle : (w :: ks).length ≤ p.nodes.entries.length := by
    refine Interned.length_le_of_nodup (List.nodup_cons.2 ⟨hfresh, nodup_of_begins (Nat.le_of_eq hlen) htake⟩) ?_
    intro h hh
    rcases List.mem_cons.1 hh with rfl | hh
    · exact hw
    · obtain ⟨xs, hxs⟩ := htuple h hh
      exact Option.isSome_of_eq_some (node?_of_tuple? hxs)
  rw [List.length_cons] at hle
  omega

end Program

/-! ## What is written -/

section Write

variable {ρ : Type} {shape : ρ → Prop} {refs : ρ → List Entity} {what : String} {view : ρ → UInt32}
  {update : ρ → UInt32 → ρ}

/-- A record whose first field is a word begins with that word. -/
theorem Layout.Lawful.begins {l : Layout ρ} (hl : l.Lawful shape refs) {rest : List (Slot ρ)}
    (hslots : l.slots = (Cell.word what).field view update :: rest) (x : ρ) (p : Program) {q : Program}
    (hq : (l.write x p).2.Extends q) : q.Begins (l.write x p).1 (view x) := by
  obtain ⟨ops, hnode, hlen, hops⟩ := hl.operands x p
  rw [hslots] at hlen
  match ops, hlen with
  | op :: ops, _ =>
    obtain ⟨p₀, q₀, -, rfl, hext⟩ := hops 0 _ op (by rw [hslots]; rfl) rfl
    have hword := Cell.word_wordOperand (view x) q₀ (s := ⟨q, 0⟩) (hext.trans hq) what
    refine ⟨_, ops, ?_, Source.word_iff.1 hword⟩
    simp only [Program.tuple?, hq.node? hnode]
    rfl

variable {layout : Nat → Layout ρ} {shape : Nat → ρ → Prop}

/-- A list of records that begin with their positions is no longer than there are words. -/
theorem Cell.length_le_of_list (hl : ∀ i, (layout i).Lawful (shape i) refs)
    (hslots : ∀ i, ∃ rest, (layout i).slots = (Cell.word what).field view update :: rest)
    {missing : Nat → String} {xs : List ρ} (hview : ∀ i x, xs[i]? = some x → view x = UInt32.ofNat i)
    {p₀ p q : Program} (hext : (((Cell.list missing layout).late.put xs p₀).1 p).2.Extends q)
    (hq : q.nodes.entries.length ≤ UInt32.size) : xs.length ≤ UInt32.size := by
  have hgrow : ∀ e : ρ × Nat, Build.Growing ((layout e.2).write e.1) := fun e => (hl e.2).growing e.1
  have hmade := Build.made_mapM (fun e (_ : e ∈ xs.zipIdx) => hgrow e) p
  generalize hb : xs.zipIdx.mapM (fun e => (layout e.2).write e.1) p = b at hmade
  have hput : (((Cell.list missing layout).late.put xs p₀).1 p).2 = (Cell.listOperand b.1 b.2).2 := by
    rw [← hb]
    rfl
  rw [hput] at hext
  have hlen : b.1.length = xs.length := by
    rw [← hmade.length_eq, List.length_zipIdx]
  rw [← hlen]
  refine Program.length_le_of_begins ?_ hq
  intro i h hi
  have hi' : i < xs.length := hlen ▸ (List.getElem?_eq_some_iff.1 hi).1
  have hx : xs.zipIdx[i]? = some (xs[i], i) := by simp [hi']
  obtain ⟨r, -, hr, rfl⟩ := getElem?_forall₂ hmade hx hi
  obtain ⟨rest, hrest⟩ := hslots i
  rw [← hview i xs[i] (List.getElem?_eq_getElem hi')]
  exact (hl i).begins hrest xs[i] r
    (hr.toExtends.trans ((Cell.growing_listOperand _ _).toExtends.trans hext))

end Write

/-- A registry is written with as many ids as it has records. -/
theorem Registry.bounded_of_write {r : Registry} {p q : Program}
    (hext : (layout.write r.renumber p).2.Extends q) (hq : q.nodes.entries.length ≤ UInt32.size) :
    r.Bounded := by
  obtain ⟨ops, -, hlen, hops⟩ := Registry.lawful_layout.operands r.renumber p
  have hid : ∀ {π : Type} (xs : List (Bound π)) (i : Nat) (x : Bound π),
      (Bound.renumber xs)[i]? = some x → x.id = UInt32.ofNat i := by
    intro π xs i x hx
    obtain ⟨hi, rfl⟩ := List.getElem?_eq_some_iff.1 hx
    exact Bound.id_renumber xs i hi
  match ops, hlen with
  | [srvs, uavs, cbuffers, samplers], _ =>
    constructor
    case srvs =>
      obtain ⟨p₀, q₀, -, -, h⟩ := hops 0 _ srvs rfl rfl
      have := Cell.length_le_of_list View.lawful_srvLayout (fun i => ⟨_, rfl⟩) (hid r.srvs) (h.trans hext) hq
      simpa using this
    case uavs =>
      obtain ⟨p₀, q₀, -, -, h⟩ := hops 1 _ uavs rfl rfl
      have := Cell.length_le_of_list View.lawful_uavLayout (fun i => ⟨_, rfl⟩) (hid r.uavs) (h.trans hext) hq
      simpa using this
    case cbuffers =>
      obtain ⟨p₀, q₀, -, -, h⟩ := hops 2 _ cbuffers rfl rfl
      have := Cell.length_le_of_list ConstantBuffer.lawful_layout (fun i => ⟨_, rfl⟩) (hid r.cbuffers)
        (h.trans hext) hq
      simpa using this
    case samplers =>
      obtain ⟨p₀, q₀, -, -, h⟩ := hops 3 _ samplers rfl rfl
      have := Cell.length_le_of_list Sampler.lawful_layout (fun i => ⟨_, rfl⟩) (hid r.samplers)
        (h.trans hext) hq
      simpa using this

/-- Signatures whose ids are their positions are written with as many ids as they have elements. -/
theorem Signatures.length_le_of_write {x : Signatures} (hx : ∀ kind, (x.get kind).InOrder) {p q : Program}
    (hext : (layout.write x p).2.Extends q) (hq : q.nodes.entries.length ≤ UInt32.size) (kind : SignatureKind) :
    (x.get kind).length ≤ UInt32.size := by
  obtain ⟨ops, -, hlen, hops⟩ := Signatures.lawful_layout.operands x p
  have hid : ∀ kind i e, (x.get kind)[i]? = some e → e.id = UInt32.ofNat i := fun kind i e he =>
    hx kind e i (List.mk_mem_zipIdx_iff_getElem?.2 he)
  match ops, hlen with
  | [input, output, patchConstant], _ =>
    cases kind with
    | input =>
      obtain ⟨p₀, q₀, -, -, h⟩ := hops 0 _ input rfl rfl
      exact Cell.length_le_of_list (Element.lawful_layout .input) (fun i => ⟨_, rfl⟩) (hid .input)
        (h.trans hext) hq
    | output =>
      obtain ⟨p₀, q₀, -, -, h⟩ := hops 1 _ output rfl rfl
      exact Cell.length_le_of_list (Element.lawful_layout .output) (fun i => ⟨_, rfl⟩) (hid .output)
        (h.trans hext) hq
    | patchConstant =>
      obtain ⟨p₀, q₀, -, -, h⟩ := hops 2 _ patchConstant rfl rfl
      exact Cell.length_le_of_list (Element.lawful_layout .patchConstant) (fun i => ⟨_, rfl⟩)
        (hid .patchConstant) (h.trans hext) hq

/-- The signatures are written before the operands of the entry point. -/
theorem EntryPoint.exists_write (x : EntryPoint) (p : Program) :
    ∃ p₀, (Signatures.layout.write x.signatures p₀).2.Extends (layout.write x p).2 := by
  obtain ⟨ops, -, hlen, hops⟩ := EntryPoint.lawful_layout.operands x p
  match ops, hlen with
  | [function, name, signatures], _ =>
    obtain ⟨p₀, q₀, hgrow, -, hext⟩ := hops 2 _ signatures rfl rfl
    exact ⟨p₀, hgrow.toExtends.trans hext⟩

namespace Tables

/-- Among what is built are the entry point and the resources. -/
theorem exists_write (t : Tables) (p : Program) :
    ∃ p₀ p₁, (EntryPoint.layout.write t.entryPoint p₀).2.Extends (t.build p).2 ∧
      (Registry.layout.write t.resources.renumber p₁).2.Extends (t.build p).2 := by
  obtain ⟨nodes, -, hbuilt⟩ := t.nodes_build p
  obtain ⟨p₀, hentry, -⟩ := hbuilt .entryPoints
  obtain ⟨p₁, hresources, -⟩ := hbuilt .resources
  exact ⟨p₀, p₁, hentry, hresources⟩

/-- Tables in order that are written into a program with no more nodes than there are handles have an id
for every record and every element. -/
theorem bounded_of_emit {t : Tables} (ht : t.Orderly) {p q : Program} (h : t.emit p = .ok () q)
    (hq : q.nodes.entries.length ≤ UInt32.size) : t.Bounded := by
  obtain ⟨p₀, p₁, hentry, hresources⟩ := t.exists_write p
  obtain ⟨p₂, hsignatures⟩ := t.entryPoint.exists_write p₀
  unfold emit at h
  split at h
  · cases h
  · generalize t.build p = b at h hentry hresources
    obtain ⟨groups, r⟩ := b
    obtain ⟨-, rfl⟩ := EStateM.Result.ok.inj h
    obtain ⟨named, hrest⟩ := foldl_setGroup_rest groups r
    rw [hrest] at hq
    exact ⟨Registry.bounded_of_write hresources hq,
      Signatures.length_le_of_write ht.signatures (hsignatures.trans hentry) hq⟩

end Tables

/-! ## What is read -/

section Read

variable {ρ : Type}

/-- A record that was written is read only if all its fields are. -/
theorem Layout.Lawful.get_of_read {l : Layout ρ} {shape : ρ → Prop} {refs : ρ → List Entity}
    (hl : l.Lawful shape refs) {x z : ρ} {p : Program} {s : Source}
    (hsince : ∀ f ∈ l.slots, f.since ≤ s.minor) (hext : (l.write x p).2.Extends s.program)
    (h : l.read s (l.write x p).1 = .ok z) {i : Nat} (hi : i ∈ l.order) {f : Slot ρ} (hf : l.slots[i]? = some f) :
    ∃ p₀ q₀ y w, (f.put x p₀).2.Grows q₀ ∧ ((f.put x p₀).1 q₀).2.Extends s.program ∧
      f.get s ((f.put x p₀).1 q₀).1 y = .ok w := by
  obtain ⟨ops, hnode, hlen, hops⟩ := hl.operands x p
  have harity : l.arity s.minor = ops.length := by
    rw [hlen, Layout.arity, List.countP_eq_length]
    exact fun f hf => by simpa using hsince f hf
  obtain ⟨ops', hrecord, h⟩ := bind_eq_ok.1 h
  rw [harity, Layout.record_eq (hext.node? hnode)] at hrecord
  cases hrecord
  obtain ⟨y, w, hread⟩ := exists_of_foldlM h i hi
  have hlt : i < ops.length := hlen ▸ (List.getElem?_eq_some_iff.1 hf).1
  have hop := List.getElem?_eq_getElem hlt
  obtain ⟨p₀, q₀, hq, heq, hw⟩ := hops i f _ hf hop
  simp only [Layout.readField, hf, hop, heq] at hread
  exact ⟨p₀, q₀, y, w, hq, hw.trans hext, hread⟩

variable {layout : Nat → Layout ρ} {shape : Nat → ρ → Prop} {refs : ρ → List Entity}

/-- What is read of a list that was written is as long as the list, so there are ids for all its members if
those that are read carry their positions. -/
theorem Cell.length_le_of_get (hl : ∀ i, (layout i).Lawful (shape i) refs) {id : ρ → UInt32}
    (hid : ∀ i x, shape i x → (id x).toNat = i) {missing : Nat → String} {xs ys : List ρ} {p q : Program}
    {s : Source} (hext : (((Cell.list missing layout).late.put xs p).1 q).2.Extends s.program)
    (h : (Cell.list missing layout).late.get s (((Cell.list missing layout).late.put xs p).1 q).1 = .ok ys) :
    xs.length ≤ UInt32.size := by
  have hshape := ((lawful_list missing hl).late.reads s _ ys h).1
  have hmade := Build.made_mapM (fun (e : ρ × Nat) (_ : e ∈ xs.zipIdx) => (hl e.2).growing e.1) q
  generalize hb : xs.zipIdx.mapM (fun e => (layout e.2).write e.1) q = b at hmade
  have hput : ((Cell.list missing layout).late.put xs p).1 q = listOperand b.1 b.2 := by
    rw [← hb]
    rfl
  rw [hput] at hext h
  obtain ⟨ops, hops, h⟩ := bind_eq_ok.1 h
  rw [list_listOperand b.1 b.2 hext] at hops
  cases hops
  have hlen : xs.length = ys.length := by
    have hread := (mapM_eq_ok.1 h).length_eq
    have hwritten := hmade.length_eq
    simp only [List.length_zipIdx, List.length_map] at hread hwritten
    exact hwritten.trans hread
  rw [hlen]
  exact length_le_of_allShape hid hshape

/-- A record that was written is read only if there is an id for every member of the list that a field
holds. -/
theorem Layout.Lawful.length_le_of_read {σ : Type} {l : Layout σ} {shape' : σ → Prop} {refs' : σ → List Entity}
    (hr : l.Lawful shape' refs') {x z : σ} {p : Program} {s : Source} (hsince : ∀ f ∈ l.slots, f.since ≤ s.minor)
    (hext : (l.write x p).2.Extends s.program) (h : l.read s (l.write x p).1 = .ok z) (i : Nat) (hi : i ∈ l.order)
    {missing : Nat → String} {view : σ → List ρ} {update : σ → List ρ → σ}
    (hf : l.slots[i]? = some ((Cell.list missing layout).late.field view update))
    (hl : ∀ i, (layout i).Lawful (shape i) refs) {id : ρ → UInt32} (hid : ∀ i x, shape i x → (id x).toNat = i) :
    (view x).length ≤ UInt32.size := by
  obtain ⟨p₀, q₀, y, w, -, hslot, hget⟩ := hr.get_of_read hsince hext h hi hf
  obtain ⟨xs, hxs, -⟩ := map_eq_ok.1 hget
  exact Cell.length_le_of_get hl hid hslot hxs

end Read

/-- Resources that were written are read only if there is an id for every record. -/
theorem Registry.bounded_of_read {r r' : Registry} {p : Program} {s : Source}
    (hext : (layout.write r.renumber p).2.Extends s.program)
    (h : layout.read s (layout.write r.renumber p).1 = .ok r') : r.Bounded := by
  have hsince : ∀ f ∈ layout.slots, f.since ≤ s.minor := by simp [layout, Layout.inOrder]
  constructor
  case srvs =>
    simpa [renumber] using lawful_layout.length_le_of_read hsince hext h 0 (by decide) rfl View.lawful_srvLayout
      fun _ _ hx => hx.1
  case uavs =>
    simpa [renumber] using lawful_layout.length_le_of_read hsince hext h 1 (by decide) rfl View.lawful_uavLayout
      fun _ _ hx => hx.1
  case cbuffers =>
    simpa [renumber] using lawful_layout.length_le_of_read hsince hext h 2 (by decide) rfl
      ConstantBuffer.lawful_layout fun _ _ hx => hx.1
  case samplers =>
    simpa [renumber] using lawful_layout.length_le_of_read hsince hext h 3 (by decide) rfl Sampler.lawful_layout
      fun _ _ hx => hx.1

/-- Signatures that were written are read only if there is an id for every element. -/
theorem Signatures.length_le_of_read {x x' : Signatures} {p : Program} {s : Source}
    (hext : (layout.write x p).2.Extends s.program) (h : layout.read s (layout.write x p).1 = .ok x')
    (kind : SignatureKind) : (x.get kind).length ≤ UInt32.size := by
  have hsince : ∀ f ∈ layout.slots, f.since ≤ s.minor := by simp [layout, Layout.inOrder]
  have hid : ∀ i x, Element.Placed i x → x.id.toNat = i := fun _ _ hx => hx
  cases kind with
  | input => exact lawful_layout.length_le_of_read hsince hext h 0 (by decide) rfl (Element.lawful_layout _) hid
  | output => exact lawful_layout.length_le_of_read hsince hext h 1 (by decide) rfl (Element.lawful_layout _) hid
  | patchConstant =>
    exact lawful_layout.length_le_of_read hsince hext h 2 (by decide) rfl (Element.lawful_layout _) hid

/-- An entry point that was written is read only if its signatures are. -/
theorem EntryPoint.read_signatures {x x' : EntryPoint} {p : Program} {s : Source}
    (hext : (layout.write x p).2.Extends s.program) (h : layout.read s (layout.write x p).1 = .ok x') :
    ∃ p₀ signatures, (Signatures.layout.write x.signatures p₀).2.Extends s.program ∧
      Signatures.layout.read s (Signatures.layout.write x.signatures p₀).1 = .ok signatures := by
  have hsince : ∀ f ∈ layout.slots, f.since ≤ s.minor := by simp [layout, Layout.inOrder]
  obtain ⟨p₀, q₀, y, w, hq, hslot, hget⟩ := lawful_layout.get_of_read hsince hext h (i := 2) (by decide) rfl
  obtain ⟨signatures, hread, -⟩ := map_eq_ok.1 hget
  exact ⟨p₀, signatures, hq.toExtends.trans hslot, hread⟩

namespace Tables

/-- A group that has one node is read from it. -/
theorem read_of_readGroup {α : Type} {p : Program} {g : Group} {n : Handle .node} {absent x : α}
    {read : Handle .node → Except Fault α} (hn : p.named? g.name = some [n])
    (h : p.readGroup g absent read = .ok x) : read n = .ok x := by
  obtain ⟨found, hfound, h⟩ := bind_eq_ok.1 (within_eq_ok.1 h)
  rw [Program.single?, hn] at hfound
  cases hfound
  exact h

/-- Tables that were written are read only if there is an id for every record and every element. -/
theorem bounded_of_load {t t' : Tables} {p q : Program} (h : t.emit p = .ok () q) (hload : load q = .ok t') :
    t.Bounded := by
  obtain ⟨nodes, hentered⟩ := entered_of_emit h
  obtain ⟨v, -, hloaded⟩ := load_eq_ok.1 hload
  obtain ⟨p₀, hentry, hnodes₀⟩ := hentered.built .entryPoints
  obtain ⟨p₁, hresources, hnodes₁⟩ := hentered.built .resources
  have hnamed₀ : q.named? Group.entryPoints.name = some [(EntryPoint.layout.write t.entryPoint p₀).1] := by
    rw [hentered.named, hnodes₀]
    rfl
  have hnamed₁ : q.named? Group.resources.name = some [(Registry.layout.write t.resources.renumber p₁).1] := by
    rw [hentered.named, hnodes₁]
    rfl
  have hread₀ := read_of_readGroup hnamed₀ hloaded.entry
  have hread₁ := read_of_readGroup hnamed₁ hloaded.resources
  let s : Source := ⟨q, v.minor⟩
  have hext₀ : (EntryPoint.layout.write t.entryPoint p₀).2.Extends s.program := hentry
  have hext₁ : (Registry.layout.write t.resources.renumber p₁).2.Extends s.program := hresources
  obtain ⟨p₂, signatures, hext, hsignatures⟩ := EntryPoint.read_signatures hext₀ hread₀
  exact ⟨Registry.bounded_of_read hext₁ hread₁, Signatures.length_le_of_read hext hsignatures⟩

end Tables

end ShaderModule
