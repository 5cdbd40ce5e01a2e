import ContractTree.Proofs.Targets
import ContractTree.Proofs.Traced
import Mathlib.Data.List.Flatten

/-!
What takes the place of each statement, exactly. A statement that does not assign to a state variable is left with
its identity behind the reads that are extracted from its heads (`Lowering.run_extracts_reads`). An assignment to a
state variable becomes the reads of its operands, the statements that bind them, and a write
(`Lowering.run_expands_writes`). The temporaries and the keys of the writes are new nodes.
-/

namespace ContractTree

open Lowering (Progress)
open ContractTree.Tree (storing combining share)

/-! ## Statements in place of others -/

/-- The state variable that a statement assigns to. -/
def Tree.assigned? (c : Catalog) : Tree → Option StorageVar
  | .node _ _ .assign (target :: _) _ _ => target.access? c
  | .node _ _ (.augAssign _) (target :: _) _ _ => target.access? c
  | _ => none

theorem Tree.label_of_assigned? {c : Catalog} {u : Tree} {v : StorageVar} (h : u.assigned? c = some v) :
    u.label = .assign ∨ ∃ op, u.label = .augAssign op := by
  unfold assigned? at h
  split at h
  · exact .inl rfl
  · exact .inr ⟨_, rfl⟩
  · cases h

/-- An assignment to a state variable has a target and a value. -/
theorem Tree.Fits.of_assigned {c : Catalog} {u : Tree} {v : StorageVar} (hf : u.Fits)
    (h : u.assigned? c = some v) :
    ∃ i ty l target value, u = .node i ty l [target, value] [] [] ∧ (l = .assign ∨ ∃ op, l = .augAssign op) ∧
      target.access? c = some v := by
  have hl := label_of_assigned? h
  obtain ⟨i, ty, l, hs, bs, os⟩ := u
  rw [label_node] at hl
  obtain ⟨target, value, he⟩ := hf.two_heads (by rcases hl with rfl | ⟨op, rfl⟩ <;> exact fun _ _ _ h => h)
  refine ⟨i, ty, l, target, value, he, hl, ?_⟩
  rw [he] at h
  rcases hl with rfl | ⟨op, rfl⟩ <;> exact h

/-- A statement that is not a declaration of the module, or that assigns to a state variable, is below the body of
the module. -/
theorem Rooted.exists_frames {c : Catalog} {ν : NodeId} {names : List String} {i : NodeId} {ty : Option Ty}
    {body body' : List Tree} {C : Ctx} {u : Tree} (h : Rooted c ν names body body')
    (hC : C.plug u = .node i ty .module [] body []) (hf : u.Fits)
    (hbelow : (∃ p, C.parent = some p ∧ p ≠ i) ∨ (u.assigned? c).isSome = true) : ∃ f D, C = f :: D ∧ D ≠ [] := by
  match C, hC with
  | [], hC =>
    rcases hbelow with ⟨p, hp, -⟩ | hassigned
    · cases hp
    · rw [Ctx.plug_nil] at hC
      rw [hC] at hassigned
      cases hassigned
  | [g], hC =>
    have hC : g.plug [u] = .node i ty .module [] body [] := hC
    rcases hbelow with ⟨p, hp, hne⟩ | hassigned
    · have hg : g.id = i := by rw [← g.id_plug [u], hC]; rfl
      exact absurd ((Option.some.inj hp).symm.trans hg) hne
    · obtain ⟨v, hv⟩ := Option.isSome_iff_exists.1 hassigned
      obtain ⟨j, ty', l, target, value, rfl, hl, hacc⟩ := hf.of_assigned hv
      have hbody : Tree.node j ty' l [target, value] [] [] ∈ (Tree.node i ty .module [] body []).kids := by
        rw [← hC]
        simp
      obtain ⟨d', -, hw⟩ := h.exists_walked (by simpa using hbody) (by rcases hl with rfl | ⟨op, rfl⟩ <;> simp)
      -- nothing is put in front of a declaration, but something is in front of a write
      exact absurd rfl (hw.exists_write hl (Tree.access?_eq_some_iff.1 hacc).1).1
  | f :: g :: D, hC => exact ⟨f, g :: D, rfl, by simp⟩

/-- The tree is one of these trees or a part of one. -/
def Tree.In (x : Tree) (ts : List Tree) : Prop := ∃ C : Ctx, C.plug x ∈ ts

namespace Tree.In

variable {x t : Tree} {ts : List Tree}

theorem of_mem (hx : x ∈ ts) : x.In ts := ⟨[], hx⟩

theorem of_kids (ht : t ∈ ts) (hx : x.In t.kids) : x.In ts := by
  obtain ⟨C, hC⟩ := hx
  obtain ⟨f, hf⟩ := Tree.exists_frame hC
  exact ⟨C ++ [f], by rwa [Ctx.plug_append, Ctx.plug_cons, hf]⟩

theorem of_assigned {i : NodeId} {y z : Tree} (ht : assignTree i y z ∈ ts) (hx : x.In [z]) : x.In ts := by
  obtain ⟨C, hC⟩ := hx
  exact of_kids ht ⟨C, by simpa [assignTree] using .inr (List.mem_singleton.1 hC)⟩

/-- The keys that are shared are in the statements that bind them or among the keys of the read. -/
theorem of_shared {s : List KeyIds} {ks : List Tree} (hx : x ∈ ks) :
    x.In (share s ks).binds ∨ x ∈ (share s ks).reads := by
  induction ks generalizing s with
  | nil => cases hx
  | cons k ks ih =>
    rw [share]
    split
    · rcases List.mem_cons.1 hx with rfl | hx
      · exact .inr List.mem_cons_self
      · exact (ih hx).imp_right (List.mem_cons_of_mem _)
    · rcases List.mem_cons.1 hx with rfl | hx
      · exact .inl (of_assigned List.mem_cons_self (of_mem List.mem_cons_self))
      · refine (ih hx).imp ?_ (List.mem_cons_of_mem _)
        rintro ⟨C, hC⟩
        exact ⟨C, List.mem_cons_of_mem _ hC⟩

end Tree.In

namespace Store

/-- The trees `es` and then `t` of the store `s'` are in the place of the statement `i` of the store `s`, and share
no node. -/
structure Becomes (s s' : Store) (i : NodeId) (es : List Tree) (t : Tree) : Prop where
  place : s.InPlace s' i (es.map Tree.id) t.id
  tree : ∀ e ∈ es ++ [t], s'.tree? e.id = some e
  nodup : ((es ++ [t]).flatMap Tree.ids).Nodup

/-- The identities are distinct, and no node of the store has one of them. -/
def Unused (s : Store) (is : List NodeId) : Prop := is.Nodup ∧ ∀ i ∈ is, i ∉ s.ids

/-- The statement `i` of the store `s`, with the tree `u`, is left in its place in the store `s'`. In front of it
are the reads of its heads, and its heads are what these leave. -/
def ReadsExtracted (c : Catalog) (s s' : Store) (i : NodeId) (u : Tree) : Prop :=
  ∃ supply reads heads body orelse, supply.length = reads.length ∧
    Tree.extract c supply u.heads = ⟨reads, heads, []⟩ ∧
    s.Becomes s' i reads (.node i u.ty u.label heads body orelse) ∧ s.Unused (supply.map ReadIds.temp)

/-- What takes the place of the assignment `i` in the store `s'` begins with the reads of its value and of the keys
of its target, and the value and the keys that these leave are parts of what follows. -/
def OperandsExtracted (c : Catalog) (s s' : Store) (i : NodeId) (target value : Tree) : Prop :=
  ∃ supply reads value' keys more t, supply.length = reads.length ∧
    Tree.extract c supply (value :: target.links.map Link.key) = ⟨reads, value' :: keys, []⟩ ∧
    s.Becomes s' i (reads ++ more) t ∧ (∀ x ∈ value' :: keys, x.In (more ++ [t])) ∧
    s.Unused (supply.map ReadIds.temp)

/-- The assignment `i` of a value to the variable has become a write of a temporary that the value is bound to. -/
def StoreExpanded (c : Catalog) (s s' : Store) (i : NodeId) (v : StorageVar) (target value : Tree) : Prop :=
  ∃ supply ids reads value' keys, supply.length = reads.length ∧
    Tree.extract c supply (value :: target.links.map Link.key) = ⟨reads, value' :: keys, []⟩ ∧
    s.Becomes s' i (storing v ids reads keys value').1 (storing v ids reads keys value').2 ∧
    s.Unused (supply.map ReadIds.temp ++ [ids.temp])

/-- The augmented assignment `i` to the variable has become a read, an operation and a write, after the statements
that bind those keys that are no atoms. The keys of the write are new nodes. -/
def UpdateExpanded (c : Catalog) (s s' : Store) (i : NodeId) (op : BinOp) (v : StorageVar)
    (target value : Tree) : Prop :=
  ∃ supply keyIds ids reads value' keys, supply.length = reads.length ∧ keyIds.length = keys.length ∧
    Tree.extract c supply (value :: target.links.map Link.key) = ⟨reads, value' :: keys, []⟩ ∧
    s.Becomes s' i (combining v op ids reads (share keyIds keys) value').1
      (combining v op ids reads (share keyIds keys) value').2 ∧
    s.Unused (supply.map ReadIds.temp ++ (share keyIds keys).temps ++ [ids.current, ids.combined]) ∧
    ∀ k ∈ (share keyIds keys).writes, k.id ∉ s.ids

variable {s : Store} {p : Option NodeId} {t : Tree}

theorem Sound.notMem_of_le {i : NodeId} (hs : s.Sound) (hi : s.nextId ≤ i) : i ∉ s.ids :=
  fun hmem => Nat.not_lt_of_le hi (hs.below i hmem)

/-- New identities in what takes the place of a statement are distinct, and no node of before has one of them. -/
theorem Becomes.unused {s' : Store} {i : NodeId} {es : List Tree} {is : List NodeId} (h : s.Becomes s' i es t)
    (hs : s.Sound) (hnew : NewIds s.nextId is es) : s.Unused is := by
  have hsub : (es.flatMap Tree.ids).Sublist ((es ++ [t]).flatMap Tree.ids) :=
    (List.sublist_append_left _ _).flatMap _
  exact ⟨h.nodup.sublist (hnew.sublist.trans hsub), fun i hi => hs.notMem_of_le (hnew.new i hi)⟩

/-- What a statement is walked to, with what is put in front, has become of it. -/
theorem becomes_of_walked {s' : Store} {c : Catalog} {ν : NodeId} {f : Frame} {D : Ctx} {u u' : Tree}
    {before es after first second : List Tree} (h : s.Holds D.parent (f.plug [u])) (hf : (f.plug [u]).Fits)
    (hproper : (f.plug [u]).Proper) (hp : f.part ≠ .heads)
    (h' : s'.Holds p ((f.around (before ++ es) after first second).plug [u']))
    (hf' : ((f.around (before ++ es) after first second).plug [u']).Fits)
    (hn' : ((f.around (before ++ es) after first second).plug [u']).ids.Nodup)
    (hbefore : Walked c ν true f.left [] before) (hafter : Walked c ν true f.right [] after) :
    s.Becomes s' u.id es u' := by
  have hkids : ∀ k ∈ before ++ es ++ [u'] ++ after, s'.Holds (some f.id) k ∧ k.Fits := h'.beside hf'
  have hsub : (es ++ [u']).Sublist ((f.around (before ++ es) after first second).plug [u']).kids := by
    have hmid : (es ++ [u']).Sublist (before ++ es ++ [u'] ++ after) := by
      rw [List.append_assoc before, List.append_assoc before]
      exact (List.sublist_append_left _ _).trans (List.sublist_append_right _ _)
    refine hmid.trans ?_
    unfold Frame.plug
    split
    · exact (List.sublist_append_left _ _).trans (List.sublist_append_left _ _)
    · exact (List.sublist_append_right _ _).trans (List.sublist_append_left _ _)
    · exact List.sublist_append_right _ _
  rw [Tree.ids_eq, List.nodup_cons] at hn'
  have hn : ((es ++ [u']).flatMap Tree.ids).Nodup := hn'.2.sublist (hsub.flatMap _)
  refine ⟨inPlace_of_walked h hf hproper hp h' hf' hbefore hafter, fun e he => ?_, hn⟩
  obtain ⟨hheld, hfit⟩ := hkids e (by
    rw [List.append_assoc before]
    exact List.mem_append_left _ (List.mem_append_right _ he))
  refine hheld.tree?_eq hfit ?_
  obtain ⟨xs, ys, hxs⟩ := List.append_of_mem he
  rw [hxs, List.flatMap_append, List.flatMap_cons, List.nodup_append', List.nodup_append'] at hn
  exact hn.2.1.1

end Store

namespace Walked

variable {c : Catalog} {ν : NodeId} {u u' target value : Tree} {es : List Tree} {i : NodeId} {ty : Option Ty}
  {l : Label} {v : StorageVar}

/-- A statement that does not assign to a state variable is left behind the reads of its heads. -/
theorem exists_reads (h : Walked c ν false [u] es [u']) (hf : u.Fits) (hp : u.Proper)
    (hl : u.label.isStatement = true) (ha : u.assigned? c = none) :
    ∃ supply heads body orelse, u' = .node u.id u.ty u.label heads body orelse ∧
      Numbers c ν supply u.heads es heads := by
  obtain ⟨i, ty, l, hs, bs, os⟩ := u
  obtain ⟨hs', bs', os', rfl, hh, hb, ho⟩ := h.inner_inv hl fun hassign target htarget => by
    obtain ⟨rest, rfl⟩ := List.head?_eq_some_iff.1 htarget
    rcases hassign with rfl | ⟨op, rfl⟩ <;> exact ha
  obtain ⟨supply, hnum⟩ := hh.exists_numbers fun k hk =>
    ⟨hf.kid (by simp [hk]), hp.kid (by simp [hk]), hp.top.1 k hk⟩
  exact ⟨supply, hs', bs', os', rfl, hnum⟩

/-- An assignment to a state variable is rewritten. -/
theorem rewritten (h : Walked c ν false [.node i ty l [target, value] [] []] es [u'])
    (hl : l = .assign ∨ ∃ op, l = .augAssign op) (hacc : target.access? c = some v) :
    Rewritten c ν (.node i ty l [target, value] [] []) es u' := by
  cases h with
  | rewrite hrew hts =>
    cases hts
    simpa using hrew
  | inner _ ht =>
    have hreach := (Tree.access?_eq_some_iff.1 hacc).1
    rw [ht hl target (by simp)] at hreach
    cases hreach

theorem stored (h : Walked c ν false [.node i ty .assign [target, value] [] []] es [u'])
    (hacc : target.access? c = some v) : Stored c ν (.node i ty .assign [target, value] [] []) es u' := by
  cases h.rewritten (.inl rfl) hacc with
  | read j temp ty' hread => cases hread
  | store h => exact h
  | combine h => cases h

theorem combined {op : BinOp} (h : Walked c ν false [.node i ty (.augAssign op) [target, value] [] []] es [u'])
    (hacc : target.access? c = some v) :
    Combined c ν (.node i ty (.augAssign op) [target, value] [] []) es u' := by
  cases h.rewritten (.inr ⟨op, rfl⟩) hacc with
  | read j temp ty' hread => cases hread
  | store h => cases h
  | combine h => exact h

/-- The operands of an assignment to a state variable have their reads in front, and are parts of what comes after
those. -/
theorem exists_operands (h : Walked c ν false [.node i ty l [target, value] [] []] es [u'])
    (hf : (Tree.node i ty l [target, value] [] []).Fits) (hp : (Tree.node i ty l [target, value] [] []).Proper)
    (hl : l = .assign ∨ ∃ op, l = .augAssign op) (hacc : target.access? c = some v) :
    ∃ supply reads value' keys more, es = reads ++ more ∧
      Numbers c ν supply (value :: target.links.map Link.key) reads (value' :: keys) ∧
      ∀ x ∈ value' :: keys, x.In (more ++ [u']) := by
  rcases hl with rfl | ⟨op, rfl⟩
  · obtain ⟨v, supply, n, reads, value', keys, -, hnum, hstoring, -⟩ := (h.stored hacc).exists_ids hf hp
    obtain ⟨rfl, rfl⟩ := Prod.mk.inj hstoring
    refine ⟨supply, reads, value', keys, _, rfl, hnum, List.forall_mem_cons.2 ⟨?_, fun k hk => ?_⟩⟩
    · exact .of_assigned List.mem_cons_self (.of_mem List.mem_cons_self)
    · exact .of_kids (List.mem_cons_of_mem _ List.mem_cons_self) (.of_mem (by simp [writeTree, hk]))
  · obtain ⟨v, supply, keySupply, n, reads, value', keys, -, hnum, -, hcombining, -⟩ :=
      (h.combined hacc).exists_ids hf hp
    obtain ⟨rfl, rfl⟩ := Prod.mk.inj hcombining
    refine ⟨supply, reads, value', keys, _, List.append_assoc .., hnum,
      List.forall_mem_cons.2 ⟨?_, fun k hk => ?_⟩⟩
    · refine .of_assigned (List.mem_append_left _
        (List.mem_append_right _ (List.mem_cons_of_mem _ List.mem_cons_self))) ?_
      exact .of_kids List.mem_cons_self (.of_mem (by simp))
    · rcases Tree.In.of_shared (s := keySupply) hk with ⟨C, hC⟩ | hk
      · exact ⟨C, by simp [hC]⟩
      · have hread : k ∈ (readTree n.read n.current n.readSlot v (some v.value)
          (share keySupply keys).reads).kids := by
          simp [readTree, hk]
        exact .of_kids (by simp) (.of_mem hread)

end Walked

/-- What a run makes of the statement `u`, which is walked to `u'` behind `es`. -/
structure Expands (c : Catalog) (s s' : Store) (u : Tree) (es : List Tree) (u' : Tree) : Prop where
  fits : u.Fits
  proper : u.Proper
  walked : Walked c s.nextId false [u] es [u']
  becomes : s.Becomes s' u.id es u'

namespace Lowering

variable {w w' : Workspace Progress} {m : NodeId} {cfg : Print.Config} {text : String} {n : Node} {u : Tree}

/-- A run that ends makes something of each statement below the body of the module, and of each assignment to
storage. -/
theorem run_expands (hs : w.store.Sound) (hv : w.store.verify m = .ok ())
    (hmodule : ∀ n ∈ w.store.preorder m, n.kind.isModule = true ↔ n.id = m)
    (hrender : Print.render w.store cfg m = .ok text) (hrun : run m w = .ok () w') (hn : n ∈ w.store.preorder m)
    (hu : w.store.tree? n.id = some u) (hl : u.label.isStatement = true)
    (hbelow : (∃ p, n.parent = some p ∧ p ≠ m) ∨ (u.assigned? (w.store.stateVars m)).isSome = true) :
    u.id = n.id ∧ ∃ es u', Expands (w.store.stateVars m) w.store w'.store u es u' := by
  obtain ⟨T, rfl, hf, hnodup, hT⟩ := (Store.verify_iff hs.nodup m).1 hv
  have hm := hT.no_module hf hnodup fun n hn => (hmodule n hn).1
  obtain ⟨i, ty, body, rfl⟩ : ∃ i ty body, T = .node i ty .module [] body [] :=
    ⟨_, _, _, eq_module hf (hT.label_module hf hnodup hmodule)⟩
  obtain ⟨hproper, -⟩ := Print.proper_of_render hT hf hrender
  have hc : w.store.stateVars i = Tree.catalogOf body := hT.stateVars_eq hf hnodup
  rw [Tree.id_node] at hmodule hrender hrun hn hbelow ⊢
  rw [hc] at hbelow ⊢
  obtain ⟨body', hran⟩ := (run_spec hs hf hnodup hT fun k hk => hm k (by simpa using hk)).of_ok hrun
  have hT' := hran.has.holds
  have hf' := hran.has.fits
  have hn' := hran.has.nodup
  -- the statement as a tree, and its place
  obtain hn : n ∈ (Tree.node i ty .module [] body []).nodes none := hT.preorder_eq hf hnodup ▸ hn
  obtain ⟨C, u₀, hC, rfl⟩ := hT.exists_of_mem_nodes hn
  have hfu : u₀.Fits := Ctx.fits_of_plug (hC ▸ hf)
  have hnu : u₀.ids.Nodup := ((Ctx.nodup_plug C u₀).1 (hC ▸ hnodup)).2.1
  obtain rfl : u₀ = u := by
    have hin : w.store.Holds C.parent u₀ := Store.Holds.inside (hC ▸ hT)
    rw [Tree.root_id, hin.tree?_eq hfu hnu] at hu
    exact Option.some.inj hu
  refine ⟨rfl, ?_⟩
  obtain ⟨f, D, rfl, hD⟩ := hran.rooted.exists_frames hC hfu hbelow
  obtain ⟨hpart, D', first, second, before, es, u', after, hplug, hbefore, hwalk, hafter⟩ :=
    hran.rooted.exists_place hC hD hf hproper hl
  rw [← hC] at hT hf hproper
  rw [hplug] at hT' hf' hn'
  have hbecomes := Store.becomes_of_walked (Store.Holds.inside (C := D) hT) (Ctx.fits_of_plug hf)
    (Tree.All.of_plug hproper)
    hpart hT'.inside (Ctx.fits_of_plug hf') ((Ctx.nodup_plug _ _).1 hn').2.1 hbefore hafter
  exact ⟨es, u', hfu, Tree.All.of_plug hproper, hwalk, hbecomes⟩

/-- A contract with a read in a key, a store, and an update whose key is bound:
```
x: uint256
m: HashMap[uint256, uint256]
def f():
    y = self.m[self.x]
    self.m[self.x] = y
    self.m[y + 1] += 2
```
-/
def vault : Store :=
  let member (i j : NodeId) (x : String) : Tree := .node i none (.member x) [.leaf j none (.name "self")] [] []
  let subscript (i : NodeId) (value key : Tree) : Tree := .node i none .subscript [value, key] [] []
  .ofTree
    (.node ⟨0⟩ none .module [] [
      .node ⟨1⟩ (some (.uint 256)) (.variableDecl false false false) [.leaf ⟨2⟩ none (.name "x")] [] [],
      .node ⟨3⟩ (some (.mapping (.uint 256) (.uint 256))) (.variableDecl false false false)
        [.leaf ⟨4⟩ none (.name "m")] [] [],
      .node ⟨5⟩ none (.functionDef "f" .external .nonPayable) [] [
        .node ⟨6⟩ none .assign [.leaf ⟨7⟩ none (.name "y"),
          subscript ⟨8⟩ (member ⟨9⟩ ⟨10⟩ "m") (member ⟨11⟩ ⟨12⟩ "x")] [] [],
        .node ⟨13⟩ none .assign [
          subscript ⟨14⟩ (member ⟨15⟩ ⟨16⟩ "m") (member ⟨17⟩ ⟨18⟩ "x"), .leaf ⟨19⟩ none (.name "y")] [] [],
        .node ⟨20⟩ none (.augAssign .add) [
          subscript ⟨21⟩ (member ⟨22⟩ ⟨23⟩ "m")
            (.node ⟨24⟩ none (.binOp .add) [.leaf ⟨25⟩ none (.name "y"), .leaf ⟨26⟩ none (.int 1)] [] []),
          .leaf ⟨27⟩ none (.int 2)] [] []] []] [])
    ⟨28⟩

theorem sound_vault : vault.Sound := ⟨by decide, by decide, by decide⟩

theorem accepted_vault : vault.verify ⟨0⟩ = .ok () ∧ (∃ text, Print.render vault {} ⟨0⟩ = .ok text) ∧
    ∃ w', run ⟨0⟩ ⟨vault, {}⟩ = .ok () w' := by
  decide +kernel

theorem verify_vault : vault.verify ⟨0⟩ = .ok () := accepted_vault.1

theorem render_vault : ∃ text, Print.render vault {} ⟨0⟩ = .ok text := accepted_vault.2.1

theorem run_vault : ∃ w', run ⟨0⟩ ⟨vault, {}⟩ = .ok () w' := accepted_vault.2.2

theorem only_module_vault : ∀ n ∈ vault.preorder ⟨0⟩, n.kind.isModule = true ↔ n.id = ⟨0⟩ := by decide

theorem store_vault : ∃ n ∈ vault.preorder ⟨0⟩, n.id = ⟨13⟩ ∧ ∃ ty target value v,
    vault.tree? n.id = some (.node n.id ty .assign [target, value] [] []) ∧
    target.access? (vault.stateVars ⟨0⟩) = some v ∧ v.name = "m" := by
  obtain ⟨n, hn, hid⟩ : ∃ n ∈ vault.preorder ⟨0⟩, n.id = ⟨13⟩ := by decide
  exact ⟨n, hn, hid, _, _, _, _, by rw [hid]; rfl, rfl, rfl⟩

theorem update_vault : ∃ n ∈ vault.preorder ⟨0⟩, n.id = ⟨20⟩ ∧ ∃ ty target value v,
    vault.tree? n.id = some (.node n.id ty (.augAssign .add) [target, value] [] []) ∧
    target.access? (vault.stateVars ⟨0⟩) = some v ∧ v.name = "m" := by
  obtain ⟨n, hn, hid⟩ : ∃ n ∈ vault.preorder ⟨0⟩, n.id = ⟨20⟩ := by decide
  exact ⟨n, hn, hid, _, _, _, _, by rw [hid]; rfl, rfl, rfl⟩

/-- **Reads are extracted exactly, in both ways in which the pass lowers them.** Let the pass come to its end. A
statement below the body of the module that does not assign to a state variable is left in its place, after the
reads that `Tree.extract` gives for its heads. For the value and the keys of a statement that does, the reads are
given by the same function, so that they differ in their identities only. -/
theorem run_extracts_reads (hs : w.store.Sound) (hv : w.store.verify m = .ok ())
    (hmodule : ∀ n ∈ w.store.preorder m, n.kind.isModule = true ↔ n.id = m)
    (hrender : Print.render w.store cfg m = .ok text) (hrun : run m w = .ok () w') (hn : n ∈ w.store.preorder m)
    (hu : w.store.tree? n.id = some u) :
    (u.label.isStatement = true → (∃ p, n.parent = some p ∧ p ≠ m) → u.assigned? (w.store.stateVars m) = none →
      w.store.ReadsExtracted (w.store.stateVars m) w'.store n.id u) ∧
    ∀ target value v, u.heads = [target, value] → u.assigned? (w.store.stateVars m) = some v →
      w.store.OperandsExtracted (w.store.stateVars m) w'.store n.id target value := by
  refine ⟨fun hl hparent hassigned => ?_, fun target value v hheads hassigned => ?_⟩
  · obtain ⟨hid, es, u', hexp⟩ := run_expands hs hv hmodule hrender hrun hn hu hl (.inl hparent)
    obtain ⟨supply, heads, body, orelse, rfl, hnum⟩ := hexp.walked.exists_reads hexp.fits hexp.proper hl hassigned
    rw [← hid]
    exact ⟨supply, es, heads, body, orelse, hnum.length, by simpa using hnum.extract [], hexp.becomes,
      hexp.becomes.unused hs hnum.temps⟩
  · have hl : u.label.isStatement = true := by
      rcases Tree.label_of_assigned? hassigned with h | ⟨op, h⟩ <;> rw [h] <;> rfl
    obtain ⟨hid, es, t, hexp⟩ :=
      run_expands hs hv hmodule hrender hrun hn hu hl (.inr (Option.isSome_iff_exists.2 ⟨v, hassigned⟩))
    obtain ⟨i, ty, l, x, y, rfl, hl, hacc⟩ := hexp.fits.of_assigned hassigned
    obtain ⟨rfl, rfl⟩ : x = target ∧ y = value := by simpa using hheads
    obtain ⟨supply, reads, value', keys, more, rfl, hnum, hin⟩ :=
      hexp.walked.exists_operands hexp.fits hexp.proper hl hacc
    rw [← hid]
    exact ⟨supply, reads, value', keys, more, t, hnum.length, by simpa using hnum.extract [], hexp.becomes, hin,
      hexp.becomes.unused hs (by simpa using hnum.temps.append (NewIds.nil : NewIds _ [] more))⟩

theorem run_extracts_reads_vault : ∃ w' u ty target value v, run ⟨0⟩ ⟨vault, {}⟩ = .ok () w' ∧
    vault.tree? ⟨6⟩ = some u ∧ vault.ReadsExtracted (vault.stateVars ⟨0⟩) w'.store ⟨6⟩ u ∧
    vault.tree? ⟨13⟩ = some (.node ⟨13⟩ ty .assign [target, value] [] []) ∧
    target.access? (vault.stateVars ⟨0⟩) = some v ∧
    vault.OperandsExtracted (vault.stateVars ⟨0⟩) w'.store ⟨13⟩ target value := by
  obtain ⟨w', hrun⟩ := run_vault
  obtain ⟨text, hrender⟩ := render_vault
  obtain ⟨n, hn, hid, hparent⟩ : ∃ n ∈ vault.preorder ⟨0⟩, n.id = ⟨6⟩ ∧ n.parent = some ⟨5⟩ := by decide
  obtain ⟨u, hu, hl, hassigned⟩ : ∃ u, vault.tree? ⟨6⟩ = some u ∧ u.label.isStatement = true ∧
      u.assigned? (vault.stateVars ⟨0⟩) = none := ⟨_, rfl, rfl, rfl⟩
  obtain ⟨n', hn', hid', ty, target, value, v, hstore, hacc, -⟩ := store_vault
  have hs := sound_vault
  have hv := verify_vault
  have hmodule := only_module_vault
  -- the contract stays folded, or the run would be evaluated where its specification is applied
  generalize vault = s at *
  have hleft := run_extracts_reads (w := ⟨s, {}⟩) hs hv hmodule hrender hrun hn (hid ▸ hu)
  have hstored := run_extracts_reads (w := ⟨s, {}⟩) hs hv hmodule hrender hrun hn' hstore
  rw [hid] at hleft
  rw [hid'] at hstore hstored
  exact ⟨w', u, ty, target, value, v, hrun, hu, hleft.1 hl ⟨⟨5⟩, hparent, by decide⟩ hassigned, hstore, hacc,
    hstored.2 target value v rfl hacc⟩

end Lowering

end ContractTree
