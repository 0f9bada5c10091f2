import CborGraph.Proofs.Linked
import CborGraph.Proofs.Sharing
import Mathlib.Data.List.Forall2
import Mathlib.Data.List.Basic

/-!
# Cyclic documents

A document in which containers are met again only while they are open, so a tree with back
references, is decoded to the graph that was encoded: `decode_encodeToBytes`. `Copies` says
that what was decoded is the graph, with its containers renamed and the identities of empty
ones forgotten.

The decoder numbers nodes in the order in which a walk enters containers, and has open what the
walk has open. So a reference leads to the right node if its index is the place of the
container among those that are open, which is `Walks.place_of_encounter`.
-/

namespace CborGraph

/-! ### What a graph is decoded to -/

/-- The linked item of a container, given those of the values in it. -/
def Contents.linked (parts : List Linked) : Contents → Linked
  | items _ => .array parts
  | entries _ => .map (pairUp parts)

/-- The linked item of a value: scalars are their items, containers that are not empty are nodes
by their names. -/
def View.link? (settings : Settings) (view : View) (name : Ident → Nat) : Value → Option Linked
  | .tag number v => (view.link? settings name v).map (.tag number.toNat)
  | .container id =>
    (view.contents? id).map fun c => if c.length = 0 then c.linked [] else .node (name id)
  | v => (settings.item? v).map Linked.ofItem

theorem View.link?_scalar {settings : Settings} {v : Value} {item : Item}
    (h : settings.item? v = some item) (view : View) (name : Ident → Nat) :
    view.link? settings name v = some (Linked.ofItem item) := by
  cases v with
  | tag number v => cases h
  | container id => cases h
  | _ =>
    rw [link?, h, Option.map_some]
    · intro number v hv
      cases hv
    · intro id hv
      cases hv

/-- What is in the node of a container. -/
def View.IsNode (settings : Settings) (view : View) (name : Ident → Nat) (id : Ident) (x : Linked) :
    Prop :=
  ∃ c parts, view.contents? id = some c ∧
    c.values.map (view.link? settings name) = parts.map some ∧ x = c.linked parts

/-- The linked item and the nodes are the value and all that can be reached from it: the nodes
are the containers that are not empty, one for each. -/
structure Copies (settings : Settings) (view : View) (v : Value) (name : Ident → Nat) (root : Linked)
    (nodes : List Linked) : Prop where
  root : view.link? settings name v = some root
  node : ∀ id, view.Reaches v id → view.Nonempty id →
    ∃ x, nodes[name id]? = some x ∧ view.IsNode settings name id x
  injective : ∀ id jd, view.Reaches v id → view.Nonempty id → view.Reaches v jd → view.Nonempty jd →
    name id = name jd → id = jd
  surjective : ∀ k < nodes.length, ∃ id, view.Reaches v id ∧ view.Nonempty id ∧ name id = k

/-- No tag in the value is one of those that mark containers and refer to them. -/
def Value.Plain : Value → Prop
  | .tag number v => number ≠ Tag.shareable ∧ number ≠ Tag.reference ∧ v.Plain
  | _ => True

/-- The values in all containers are plain. -/
def Graph.Plain (g : Graph) : Prop := ∀ cell ∈ g.cells, ∀ v ∈ cell.values, v.Plain

theorem Graph.Plain.contents {g : Graph} (h : g.Plain) {id : Ident} {c : Contents}
    (hc : g.view.contents? id = some c) : ∀ v ∈ c.values, v.Plain := by
  intro v hv
  obtain ⟨cell, hcell, hv⟩ := g.exists_cell_of_mem hc hv
  exact h cell hcell v hv

/-- Containers that are not empty are met again only while they are open. -/
def OnlyBackReferences (settings : Settings) (view : View) (v : Value) : Prop :=
  ∀ w marks, Walks settings view true [] [] [v] w marks →
    ∀ before e after, w.encounters [] = before ++ e :: after →
      (∃ f ∈ before, f.id = e.id) → e.id ∈ e.opened

/-! ### Back references -/

/-- There are only back references exactly if every container that is referred to is open then. -/
theorem onlyBackReferences_iff {settings : Settings} {view : View} {v : Value} {w : Walk} {marks : Marks}
    (hw : Walks settings view true [] [] [v] w marks) :
    OnlyBackReferences settings view v ↔
      ∀ e ∈ w.encounters [], e.index?.isSome → e.id ∈ e.opened := by
  constructor
  · intro hback e he hindex
    obtain ⟨before, after, hsplit⟩ := List.append_of_mem he
    rw [hw.index_of_encounter hsplit, Encounter.isSome_firstIndex?_iff] at hindex
    exact hback w marks hw before e after hsplit hindex
  · intro h u m hu before e after hsplit hmet
    obtain ⟨rfl, _⟩ := hw.unique hu
    rw [← Encounter.isSome_firstIndex?_iff, ← hu.index_of_encounter hsplit] at hmet
    refine h e ?_ hmet
    rw [hsplit]
    exact List.mem_append_right _ List.mem_cons_self

/-- **Every index is the place of its container** among those that are open, if there are only back
references. -/
theorem OnlyBackReferences.place {settings : Settings} {g : Graph} {v : Value}
    (hback : OnlyBackReferences settings g.view v) {w : Walk} {marks : Marks}
    (hw : Walks settings g.view true [] [] [v] w marks) {e : Encounter} (he : e ∈ w.encounters [])
    {index : Nat} (hindex : e.index? = some index) : e.opened.reverse[index]? = some e.id := by
  refine hw.place_of_encounter (.nil g true) he hindex ?_
  refine (onlyBackReferences_iff hw).mp hback e he ?_
  rw [hindex]
  rfl

/-! ### Names -/

/-- The containers are named by numbers from `next` on. -/
def Numbered (name : Ident → Nat) (next : Nat) (ids : List Ident) : Prop :=
  ∀ i id, ids[i]? = some id → name id = next + i

namespace Numbered

variable {name : Ident → Nat} {next : Nat} {id : Ident} {ids jds : List Ident}

theorem left (h : Numbered name next (ids ++ jds)) : Numbered name next ids := by
  intro i id hi
  obtain ⟨hlt, _⟩ := List.getElem?_eq_some_iff.mp hi
  exact h i id (by rw [List.getElem?_append_left hlt, hi])

theorem right (h : Numbered name next (ids ++ jds)) : Numbered name (next + ids.length) jds := by
  intro i id hi
  rw [h (ids.length + i) id (by rw [List.getElem?_append_right (Nat.le_add_right _ _),
    Nat.add_sub_cancel_left, hi]), Nat.add_assoc]

theorem head (h : Numbered name next (id :: ids)) : name id = next := h 0 id rfl

theorem tail (h : Numbered name next (id :: ids)) : Numbered name (next + 1) ids := by
  intro i jd hi
  rw [h (i + 1) jd hi]
  omega

theorem idxOf {ids : List Ident} (h : ids.Nodup) : Numbered (fun id => ids.idxOf id) 0 ids := by
  intro i id hi
  obtain ⟨hlt, rfl⟩ := List.getElem?_eq_some_iff.mp hi
  rw [Nat.zero_add]
  exact h.idxOf_getElem i hlt

end Numbered

/-! ### Decoding the items of a walk -/

namespace Linked

theorem loadAll_cons {opened : List Nat} {next : Nat} {item : Item} {items : List Item} {part : Linked}
    {parts nodes more : List Linked} (h : load opened next item = some (part, nodes))
    (hs : loadAll opened (next + nodes.length) items = some (parts, more)) :
    loadAll opened next (item :: items) = some (part :: parts, nodes ++ more) := by
  rw [loadAll, h]
  simp only [Option.bind_some]
  rw [hs]
  rfl

theorem load_of_loadAll {opened : List Nat} {next : Nat} {item : Item} {parts nodes : List Linked}
    (h : loadAll opened next [item] = some (parts, nodes)) :
    ∃ part, load opened next item = some (part, nodes) ∧ parts = [part] := by
  rw [loadAll] at h
  cases hload : load opened next item with
  | none =>
    rw [hload] at h
    cases h
  | some p =>
    rw [hload] at h
    simp only [Option.bind_some, loadAll, Option.map_some, List.append_nil] at h
    cases h
    exact ⟨p.1, rfl, rfl⟩

theorem load_empty (opened : List Nat) (next : Nat) (c : Contents) :
    load opened next (c.item []) = some (c.linked [], []) := by
  cases c with
  | items vs => rfl
  | entries es => rfl

theorem load_reference {opened : List Nat} {index place : Nat}
    (h : opened.reverse[index]? = some place) (next : Nat) :
    load opened next (.tag Tag.reference.toNat (.unsigned index)) = some (node place, []) := by
  rw [load, if_neg (by decide), if_pos rfl, resolve, h]
  rfl

theorem load_tag {number : UInt64} (hs : number ≠ Tag.shareable) (hr : number ≠ Tag.reference)
    {opened : List Nat} {next : Nat} {item : Item} {part : Linked} {nodes : List Linked}
    (h : load opened next item = some (part, nodes)) :
    load opened next (.tag number.toNat item) = some (.tag number.toNat part, nodes) := by
  have hs' : number.toNat ≠ Tag.shareable.toNat := fun heq => hs (UInt64.toNat_inj.mp heq)
  have hr' : number.toNat ≠ Tag.reference.toNat := fun heq => hr (UInt64.toNat_inj.mp heq)
  rw [load, if_neg hs', if_neg hr', h, Option.map_some]

/-- The node of a container is read from what is in it, with the node open. -/
theorem load_entered {opened : List Nat} {next : Nat} (c : Contents) {items : List Item}
    (hlen : items.length = c.values.length) {parts nodes : List Linked}
    (h : loadAll (next :: opened) (next + 1) items = some (parts, nodes)) :
    load opened next (c.entered true items) = some (.node next, c.linked parts :: nodes) := by
  rw [Contents.entered, if_pos rfl, load, if_pos rfl]
  cases c with
  | items vs =>
    rw [Contents.item, loadNode, h]
    rfl
  | entries es =>
    have heven : items.length = 2 * es.length := by rw [hlen, Contents.values, length_unpair]
    rw [Contents.item, loadNode, loadPairs_eq, unpair_pairUp _ _ heven, h]
    rfl

end Linked

open Linked in
/-- **The items of a walk are decoded to its values and the containers that it enters**, if every
index is the place of its container among those that are open. -/
theorem Visits.load {settings : Settings} {view : View} {vs : List Value} {w : Walk}
    (hw : Visits settings view vs w) {name : Ident → Nat}
    (hview : ∀ id c, view.contents? id = some c → ∀ v ∈ c.values, v.Plain) :
    ∀ {opened : List Ident} {next : Nat}, Numbered name next w.enteredIds → (∀ v ∈ vs, v.Plain) →
      (∀ e ∈ w.encounters opened, ∀ index, e.index? = some index →
        e.opened.reverse[index]? = some e.id) →
      ∃ parts nodes, loadAll (opened.map name) next (w.items true) = some (parts, nodes) ∧
        vs.map (view.link? settings name) = parts.map some ∧
        List.Forall₂ (view.IsNode settings name) w.enteredIds nodes := by
  induction hw with
  | done =>
    intro opened next _ _ _
    exact ⟨[], [], rfl, rfl, .nil⟩
  | @scalar v item vs rest hv _ ih =>
    intro opened next hn hvs hplace
    obtain ⟨parts, nodes, hload, hlink, hnodes⟩ := ih hn (List.forall_mem_cons.mp hvs).2 hplace
    refine ⟨ofItem item :: parts, nodes, loadAll_cons (load_scalar hv _ _) hload, ?_, hnodes⟩
    rw [List.map_cons, View.link?_scalar hv, hlink, List.map_cons]
  | @tag number v payload vs rest hpayload _ ihp ih =>
    intro opened next hn hvs hplace
    obtain ⟨⟨hs, hr, hv⟩, htail⟩ := List.forall_mem_cons.mp hvs
    obtain ⟨parts, nodes, hload, hlink, hnodes⟩ := ihp hn.left (List.forall_mem_singleton.mpr hv)
      fun e he => hplace e (List.mem_append_left _ he)
    obtain ⟨parts', nodes', hload', hlink', hnodes'⟩ := ih hn.right htail
      fun e he => hplace e (List.mem_append_right _ he)
    -- There is one node for each container that was entered, so the numbers go on from there.
    obtain ⟨item, hitem⟩ := hpayload.items_singleton true
    rw [hitem] at hload
    obtain ⟨part, hpart, rfl⟩ := load_of_loadAll hload
    rw [hnodes.length_eq] at hload'
    refine ⟨.tag number.toNat part :: parts', nodes ++ nodes', ?_, ?_, List.rel_append hnodes hnodes'⟩
    · rw [Walk.items, hitem]
      exact loadAll_cons (load_tag hs hr hpart) hload'
    · obtain ⟨hv', _⟩ := List.cons.inj hlink
      rw [List.map_cons, View.link?, hv', hlink', Option.map_some, List.map_cons]
  | @empty id c vs rest hc h0 _ ih =>
    intro opened next hn hvs hplace
    obtain ⟨parts, nodes, hload, hlink, hnodes⟩ := ih hn (List.forall_mem_cons.mp hvs).2 hplace
    refine ⟨c.linked [] :: parts, nodes, loadAll_cons (load_empty _ _ c) hload, ?_, hnodes⟩
    rw [List.map_cons, View.link?, hc, Option.map_some, if_pos h0, hlink, List.map_cons]
  | @again id c index vs rest hc h0 _ ih =>
    intro opened next hn hvs hplace
    obtain ⟨hhere, hafter⟩ := List.forall_mem_cons.mp hplace
    obtain ⟨parts, nodes, hload, hlink, hnodes⟩ := ih hn (List.forall_mem_cons.mp hvs).2 hafter
    -- The decoder has open the nodes of what the walk has open, in the same places.
    have hopen : (opened.map name).reverse[index]? = some (name id) := by
      rw [← List.map_reverse, List.getElem?_map, hhere index rfl, Option.map_some]
    refine ⟨.node (name id) :: parts, nodes, loadAll_cons (load_reference hopen _) hload, ?_, hnodes⟩
    rw [List.map_cons, View.link?, hc, Option.map_some, if_neg h0, hlink, List.map_cons]
  | @entered id c body vs rest hc h0 hbody _ ihb ih =>
    intro opened next hn hvs hplace
    obtain ⟨_, hinner⟩ := List.forall_mem_cons.mp hplace
    obtain ⟨parts, nodes, hload, hlink, hnodes⟩ := ihb hn.tail.left (hview id c hc)
      fun e he => hinner e (List.mem_append_left _ he)
    obtain ⟨parts', nodes', hload', hlink', hnodes'⟩ := ih hn.tail.right
      (List.forall_mem_cons.mp hvs).2 fun e he => hinner e (List.mem_append_right _ he)
    rw [List.map_cons, hn.head] at hload
    rw [hnodes.length_eq] at hload'
    refine ⟨.node next :: parts', (c.linked parts :: nodes) ++ nodes', ?_, ?_, ?_⟩
    · refine loadAll_cons (load_entered c (hbody.length_items true) hload) ?_
      rw [List.length_cons, Nat.add_comm nodes.length, ← Nat.add_assoc]
      exact hload'
    · rw [List.map_cons, View.link?, hc, Option.map_some, if_neg h0, hn.head, hlink', List.map_cons]
    · exact .cons ⟨c, parts, hc, hlink, rfl⟩ (List.rel_append hnodes hnodes')

/-! ### Documents -/

/-- Nodes that stand for the containers one by one are a copy. -/
theorem Copies.of_forall₂ {settings : Settings} {view : View} {v : Value} {ids : List Ident}
    (hids : ∀ id, id ∈ ids ↔ view.Reaches v id ∧ view.Nonempty id) (hnodup : ids.Nodup)
    {root : Linked} (hroot : view.link? settings (fun id => ids.idxOf id) v = some root)
    {nodes : List Linked}
    (hnodes : List.Forall₂ (view.IsNode settings fun id => ids.idxOf id) ids nodes) :
    Copies settings view v (fun id => ids.idxOf id) root nodes := by
  obtain ⟨hlen, hget⟩ := List.forall₂_iff_get.mp hnodes
  refine ⟨hroot, ?_, ?_, ?_⟩
  · intro id hr hne
    have hlt := List.idxOf_lt_length_of_mem ((hids id).mpr ⟨hr, hne⟩)
    have hnode := hget _ hlt (hlen ▸ hlt)
    rw [List.get_eq_getElem, List.getElem_idxOf hlt] at hnode
    exact ⟨_, List.getElem?_eq_getElem (hlen ▸ hlt), hnode⟩
  · intro id jd hr hne _ _ heq
    exact (List.idxOf_inj ((hids id).mpr ⟨hr, hne⟩)).mp heq
  · intro k hk
    rw [← hlen] at hk
    obtain ⟨hr, hne⟩ := (hids ids[k]).mp (List.getElem_mem hk)
    exact ⟨ids[k], hr, hne, hnodup.idxOf_getElem k hk⟩

/-- **Cyclic documents can be decoded.** With sharing on and no entries of the caller, if there are
only back references and no tags that mark or refer, what was encoded is decoded to a copy of
the graph, whatever follows it. Every index that is written is the place of its container
among those that are open. -/
theorem decode_encodeToBytes {o : Options} (ho : o.overrides = []) (hon : o.sharing = true) {g : Graph}
    (hg : g.Sized) (hgp : g.Plain) {v : Value} (hv : v.Sized) (hvp : v.Plain)
    (hback : OnlyBackReferences o.toSettings g.view v) {bs : Bytes}
    (h : encodeToBytes o g v = some (.ok bs)) :
    ∃ name root nodes, (∀ rest, Linked.decode (bs ++ rest) = some (root, nodes, rest)) ∧
      Copies o.toSettings g.view v name root nodes ∧
      ∃ w item, Visits o.toSettings g.view [v] w ∧ w.items true = [item] ∧
        bs = item.wire o.compactFloats ∧
        ∀ e ∈ w.encounters [], ∀ index, e.index? = some index → e.opened.reverse[index]? = some e.id := by
  obtain ⟨hdone, hbytes⟩ := encodeToBytes_eq_some_ok_iff.mp h
  obtain ⟨w, marks, item, hw, hok, hitem, hfits, hwire⟩ := encode_item ho hg hv rfl hdone
  rw [hon] at hw hitem
  have hbs : bs = item.wire o.compactFloats := by
    rw [← hbytes, hwire]
    rfl
  have hplace : ∀ e ∈ w.encounters [], ∀ index, e.index? = some index →
      e.opened.reverse[index]? = some e.id :=
    fun e he index hindex => hback.place hw he hindex
  obtain ⟨hnodup, _⟩ := hw.nodup_enteredIds
  obtain ⟨parts, nodes, hload, hlink, hnodes⟩ := (hw.visits hok).load (fun _ _ hc => hgp.contents hc)
    (.idxOf hnodup) (List.forall_mem_singleton.mpr hvp) hplace
  rw [hitem] at hload
  obtain ⟨root, hroot, rfl⟩ := Linked.load_of_loadAll hload
  refine ⟨_, root, nodes, ?_, .of_forall₂ (hw.mem_enteredIds_iff hok) hnodup (List.cons.inj hlink).1 hnodes,
    w, item, hw.visits hok, hitem, hbs, hplace⟩
  intro rest
  rw [Linked.decode, hbs, Item.parse_wire true _ hfits rest]
  simp only [Option.bind_some]
  rw [← List.map_nil, hroot, Option.map_some]

/-- An array of a map and of itself; the map leads back to the array under a key, and to itself
under the next. -/
theorem decode_encodeToBytes_twice_back :
    let g : Graph := ⟨#[.array [.container (.stored 1), .container (.stored 0)],
      .map [(.integer 1, .container (.stored 0)), (.integer 2, .container (.stored 1))]]⟩
    let v : Value := .container (.stored 0)
    let bs : Bytes := [0xD8, 28, 0x82, 0xD8, 28, 0xA2, 1, 0xD8, 29, 0, 2, 0xD8, 29, 1, 0xD8, 29, 0]
    ({ sharing := true } : Options).overrides = [] ∧ ({ sharing := true } : Options).sharing = true ∧
      g.Sized ∧ g.Plain ∧ v.Sized ∧ v.Plain ∧ OnlyBackReferences {} g.view v ∧
      encodeToBytes { sharing := true } g v = some (.ok bs) ∧
      Linked.decode bs = some (.node 0, [.array [.node 1, .node 0],
        .map [(.leaf (.unsigned 1), .node 0), (.leaf (.unsigned 2), .node 1)]], []) ∧
      ∃ name, Copies {} g.view v name (.node 0) [.array [.node 1, .node 0],
        .map [(.leaf (.unsigned 1), .node 0), (.leaf (.unsigned 2), .node 1)]] := by
  intro g v bs
  have hmap : Walks {} g.view true [.stored 0] [(.stored 0, 0)] [.container (.stored 1),
      .container (.stored 0)]
      (.entered (.stored 1) _ (.scalar _ (.again (.stored 0) 0 (.scalar _ (.again (.stored 1) 1 .done))))
        (.again (.stored 0) 0 .done)) _ :=
    .entered (c := .entries _) rfl (by decide) rfl
      (.scalar rfl (.again (c := .items _) rfl (by decide) rfl rfl
        (.scalar rfl (.again (c := .entries _) rfl (by decide) rfl rfl .done))))
      (.again (c := .items _) rfl (by decide) rfl rfl .done)
  have hw : Walks {} g.view true [] [] [v] _ _ :=
    .entered (c := .items _) rfl (by decide) rfl hmap .done
  have hsized : g.Sized := by decide
  have hplain : g.Plain := by
    simp [g, Graph.Plain, Cell.values, Value.Plain]
  have hv : v.Sized := trivial
  have hvp : v.Plain := trivial
  have hback : OnlyBackReferences {} g.view v := (onlyBackReferences_iff hw).mpr (by decide)
  have hbytes : encodeToBytes { sharing := true } g v = some (.ok bs) :=
    encodeToBytes_eq_some_ok_iff.mpr (encode_of_walks (o := { sharing := true }) rfl hw rfl rfl)
  obtain ⟨name, root, nodes, hdecode, hcopies, _⟩ :=
    decode_encodeToBytes (o := { sharing := true }) rfl rfl hsized hplain hv hvp hback hbytes
  have hread : Linked.decode bs = some (.node 0, [.array [.node 1, .node 0],
      .map [(.leaf (.unsigned 1), .node 0), (.leaf (.unsigned 2), .node 1)]], []) := rfl
  have heq := hdecode []
  rw [List.append_nil, hread] at heq
  cases heq
  exact ⟨rfl, rfl, hsized, hplain, hv, hvp, hback, hbytes, hread, name, hcopies⟩

end CborGraph
