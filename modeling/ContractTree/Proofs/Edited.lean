import ContractTree.Proofs.Linked
import ContractTree.Proofs.Site

/-!
Edits keep the tree of a module. Beside the tree of a module a store may hold detached trees, nodes that others
still list and links that lead nowhere. A primitive edit that succeeds does not tear the tree, whether it works
inside of it or elsewhere (`Edit.verify_call`): no node of the tree may be moved, adopted or discarded, since an
attached node lists it, and so a well-linked tree that may be moved shares no node with the tree of the module
(`Store.HoldsModule.apart`), or is a child of the node that it replaces.
-/

namespace ContractTree

theorem Kind.mem_children_of_replaceChild? {k k' : Kind} {old new : NodeId}
    (h : k.replaceChild? old new = some k') : old ∈ k.children := by
  by_contra hn
  rw [Kind.children_eq, List.mem_append, List.mem_append, not_or, not_or] at hn
  rw [Kind.replaceChild?_eq, replaceFirst?_of_notMem hn.1.1, replaceFirst?_of_notMem hn.1.2,
    replaceFirst?_of_notMem hn.2] at h
  cases h

namespace Store

/-- The store holds the tree of a module. -/
structure HoldsModule (s : Store) (T : Tree) : Prop where
  holds : s.Holds none T
  fits : T.Fits
  nodup : T.ids.Nodup
  label : T.label = .module

variable {s s' : Store} {T N t : Tree} {C : Ctx} {f : Frame} {i j : NodeId} {p : Option NodeId}

theorem exists_holdsModule (hs : s.ids.Nodup) (hm : (s.kind? i).any Kind.isModule) (hv : s.verify i = .ok ()) :
    ∃ T : Tree, T.id = i ∧ s.HoldsModule T := by
  obtain ⟨T, rfl, hf, hn, hT⟩ := (verify_iff hs i).1 hv
  rw [hT.kind?] at hm
  exact ⟨T, rfl, hT, hf, hn, hf.isModule_kind.1 hm⟩

namespace HoldsModule

theorem verify (h : s.HoldsModule T) : s.verify T.id = .ok () := h.holds.verify h.fits h.nodup

theorem congr (h : s.HoldsModule T) (hi : ∀ i ∈ T.ids, s'.find? i = s.find? i) : s'.HoldsModule T :=
  { h with holds := h.holds.congr hi }

theorem children_mem (h : s.HoldsModule T) (hi : i ∈ T.ids) (hj : j ∈ s.children i) : j ∈ T.ids := by
  obtain ⟨C, u, rfl, rfl⟩ := Tree.exists_place hi
  rw [h.holds.inside.children (Ctx.fits_of_plug h.fits)] at hj
  obtain ⟨k, hk, rfl⟩ := List.mem_map.1 hj
  exact (Ctx.mem_ids_plug _ _ _).2 (.inr (Tree.ids_subset_of_mem_kids hk k.id_mem_ids))

/-- Every node of the tree but the module itself is owned. -/
theorem notMem_of_owner? (h : s.HoldsModule T) (hfree : s.owner? i = none) (hne : i ≠ T.id) : i ∉ T.ids := by
  intro hi
  obtain ⟨K, t, rfl, rfl⟩ := Tree.exists_place hi
  cases K with
  | nil => exact hne rfl
  | cons f C =>
    have hf : f.id ∈ (Ctx.plug (f :: C) t).ids := (Ctx.mem_ids_plug _ _ _).2 (.inl List.mem_cons_self)
    have hlists : s.lists f.id t.id = true := by
      have hin := Holds.inside (C := C) h.holds
      rw [lists, ← f.id_plug [t], hin.children (Ctx.fits_of_plug (C := C) h.fits), f.kids_plug]
      simp
    rw [owner?, h.holds.inside.parent?, Ctx.parent_cons] at hfree
    simp [Option.filter, hlists, isAttached_of_mem h.holds h.fits h.nodup h.label hf] at hfree

/-- A tree whose top is not in the tree of the module shares no node with it. -/
theorem apart (h : s.HoldsModule T) (hN : s.Holds p N) (hid : N.id ∉ T.ids) : ∀ i ∈ N.ids, i ∉ T.ids := by
  induction N generalizing p with
  | step N ih =>
    intro i hi
    rw [Tree.ids_eq, List.mem_cons, List.mem_flatMap] at hi
    rcases hi with rfl | ⟨k, hk, hi⟩
    · exact hid
    · exact ih k hk (hN.kid hk) (fun hkT => hid (h.holds.parent?_mem hkT (hN.kid hk).parent?)) i hi

/-! ## Trees that take a place -/

/-- A tree takes the place of a part of the module's tree. -/
theorem swapped (h : s.HoldsModule (Ctx.plug (f :: C) t)) (hN : s.Holds p N) (hfit : N.Fits) (hn : N.ids.Nodup)
    (hout : ∀ i ∈ N.ids, i ∉ Ctx.ids (f :: C) ∧ i ≠ t.id) :
    (s.swapped f.id (f.kind [N.id]) t.id N.id).HoldsModule (Ctx.plug (f :: C) N) := by
  obtain ⟨hndC, -, hCt⟩ := (Ctx.nodup_plug (f :: C) t).1 h.nodup
  have hctx : ∀ i ∈ Ctx.ids (f :: C), i ≠ t.id ∧ i ≠ N.id := fun i hi =>
    ⟨fun he => hCt i hi (he ▸ t.id_mem_ids), fun he => (hout N.id N.id_mem_ids).1 (he ▸ hi)⟩
  have hf := hctx f.id List.mem_cons_self
  refine ⟨?_, ?_, ?_, ?_⟩
  · have hold := h.holds
    show Holds _ none (Ctx.plug C (f.plug [N]))
    refine hold.refill hndC ?_ (fun i hi hne => ?_) fun v hv => ?_
    · rw [find?_swapped]
      simp [hf.1, hf.2]
    · rw [find?_swapped]
      simp [hne, (hctx i hi).1, (hctx i hi).2]
    · obtain rfl := List.mem_singleton.1 hv
      refine hN.reparent hn ?_ fun i hi hne => ?_
      · rw [find?_swapped]
        simp [Ne.symm hf.2, (hout _ v.id_mem_ids).2]
      · have hif : i ≠ f.id := fun he => (hout i hi).1 (he ▸ List.mem_cons_self)
        rw [find?_swapped]
        simp [hif, hne, (hout i hi).2]
  · exact Ctx.plug_fits h.fits hfit
  · exact (Ctx.nodup_plug _ _).2 ⟨hndC, hn, fun i hi hiN => (hout i hiN).1 hi⟩
  · exact Ctx.label_plug_cons.trans h.label

/-- A tree is put into a place of the module's tree, in front of what is there. -/
theorem placed {us : List Tree} (h : s.HoldsModule (C.plug (f.plug us))) (hN : s.Holds p N) (hn : N.ids.Nodup)
    (hfit : (f.plug (N :: us)).Fits) (hout : ∀ i ∈ N.ids, i ∉ (C.plug (f.plug us)).ids) :
    (s.placed f.id (f.kind ((N :: us).map Tree.id)) N.id).HoldsModule (C.plug (f.plug (N :: us))) := by
  have hperm := ids_plug_frame (C := C) (f := f)
  have hnd := (hperm us).nodup_iff.1 h.nodup
  obtain ⟨hndC, hndu, hCu⟩ := List.nodup_append'.1 hnd
  have hne : ∀ i ∈ Ctx.ids (f :: C) ++ us.flatMap Tree.ids, i ≠ N.id := fun i hi he =>
    hout N.id N.id_mem_ids ((hperm us).mem_iff.2 (he ▸ hi))
  have hf := hne f.id (List.mem_append_left _ List.mem_cons_self)
  have hother : ∀ i, i ≠ f.id → i ≠ N.id → (s.placed f.id (f.kind ((N :: us).map Tree.id)) N.id).find? i =
      s.find? i := by
    intro i hif hiN
    rw [find?_placed]
    simp [hif, hiN]
  refine ⟨?_, ?_, ?_, ?_⟩
  · refine Holds.refill h.holds hndC ?_ (fun i hi hif => hother i hif (hne i (List.mem_append_left _ hi)))
      fun v hv => ?_
    · rw [find?_placed]
      simp [hf]
    · rcases List.mem_cons.1 hv with rfl | hv
      · refine hN.reparent hn ?_ fun i hi hiN => hother i ?_ hiN
        · rw [find?_placed]
          simp [Ne.symm hf]
        · rintro rfl
          exact hout _ hi ((hperm us).mem_iff.2 (by simp [Ctx.ids]))
      · refine ((holds_plug_frame.1 h.holds).2.2.2 v hv).congr fun i hi => hother i ?_ ?_
        · rintro rfl
          exact hCu List.mem_cons_self (List.mem_flatMap.2 ⟨v, hv, hi⟩)
        · exact hne i (List.mem_append_right _ (List.mem_flatMap.2 ⟨v, hv, hi⟩))
  · exact Ctx.plug_fits h.fits hfit
  · refine (hperm (N :: us)).nodup_iff.2 (List.nodup_append'.2 ⟨hndC, ?_, ?_⟩)
    · rw [List.flatMap_cons]
      refine List.nodup_append'.2 ⟨hn, hndu, fun i hiN hi => ?_⟩
      exact hout i hiN ((hperm us).mem_iff.2 (List.mem_append_right _ hi))
    · intro i hi hiN
      rw [List.flatMap_cons, List.mem_append] at hiN
      rcases hiN with hiN | hiu
      · exact hout i hiN ((hperm us).mem_iff.2 (List.mem_append_left _ hi))
      · exact hCu hi hiu
  · cases C with
    | nil => simpa using h.label
    | cons g C => exact Ctx.label_plug_cons.trans h.label

/-! ## The edits -/

/-- A tree that may be moved has no node in the tree of the module. -/
theorem apart_of_movable (h : s.HoldsModule T) (hN : s.Holds p N) (hmove : s.Movable none N.id)
    (hne : N.id ≠ T.id) : ∀ i ∈ N.ids, i ∉ T.ids := by
  have howner : s.owner? N.id = none := hmove.2.resolve_left fun hl => by simp at hl
  exact h.apart hN (h.notMem_of_owner? howner hne)

/-- A tree that may take the place of a part of the module's tree is apart from all that stays, as it is either
apart from the whole tree or a child of the node that leaves. -/
theorem apart_of_replaces (h : s.HoldsModule (Ctx.plug (f :: C) t)) (hN : s.Holds p N) (hfit : N.Fits)
    (hn : N.ids.Nodup) (hmove : s.Movable (some t.id) N.id) (hne : N.id ≠ (Ctx.plug (f :: C) t).id) :
    ∀ i ∈ N.ids, i ∉ Ctx.ids (f :: C) ∧ i ≠ t.id := by
  obtain ⟨-, hnt, hCt⟩ := (Ctx.nodup_plug (f :: C) t).1 h.nodup
  by_cases hNT : N.id ∈ (Ctx.plug (f :: C) t).ids
  · have hparent : s.parent? N.id = some t.id := by
      rcases hmove.2 with hl | hfree
      · exact hl.2
      · exact absurd hNT (h.notMem_of_owner? hfree hne)
    obtain ⟨K, N', hK, hid⟩ := Tree.exists_place hNT
    have hin : s.Holds K.parent N' := Holds.inside (hK ▸ h.holds)
    have hKn : (K.plug N').ids.Nodup := hK ▸ h.nodup
    obtain rfl : N' = N := hin.unique (Ctx.fits_of_plug (hK ▸ h.fits))
      ((Ctx.nodup_plug K N').1 hKn).2.1 hN hfit hn hid
    have hKp : K.parent = some t.id := by rw [← hin.parent?, hparent]
    obtain ⟨g, D, rfl⟩ : ∃ g D, K = g :: D := by
      cases K with
      | nil => simp at hKp
      | cons g D => exact ⟨g, D, rfl⟩
    obtain ⟨-, hg⟩ := Ctx.plug_inj (C := D) (D := f :: C) (t := g.plug [N']) (u := t) hK hKn (by simpa using hKp)
    have hkid : N' ∈ t.kids := by
      rw [← hg, g.kids_plug]
      simp
    intro i hi
    refine ⟨fun hiC => hCt i hiC (Tree.ids_subset_of_mem_kids hkid hi), ?_⟩
    rintro rfl
    rw [Tree.ids_eq, List.nodup_cons] at hnt
    exact hnt.1 (List.mem_flatMap.2 ⟨N', hkid, hi⟩)
  · intro i hi
    have hiT := h.apart hN hNT i hi
    rw [Ctx.mem_ids_plug, not_or] at hiT
    exact ⟨hiT.1, fun he => hiT.2 (he ▸ t.id_mem_ids)⟩

theorem replace {old : NodeId} (h : s.HoldsModule T) (hN : s.Holds p N) (hfit : N.Fits) (hn : N.ids.Nodup)
    (hne : N.id ≠ T.id) (hrun : Edit.replace old N.id s = .ok () s') :
    ∃ T' : Tree, T'.id = T.id ∧ s'.HoldsModule T' := by
  obtain ⟨n, q, m, k, hnode, hq, hmove, hm, hk, rfl⟩ := Edit.ends_replace.of_ok hrun
  have hparent : s.parent? old = some q := by rw [parent?, hnode, Option.bind_some, hq]
  by_cases hqT : q ∈ T.ids
  · have hold : old ∈ T.ids := h.children_mem hqT <| by
      rw [children, hm]
      exact Kind.mem_children_of_replaceChild? hk
    obtain ⟨K, t, rfl, rfl⟩ := Tree.exists_place hold
    have hKq : K.parent = some q := by rw [← h.holds.inside.parent?, hparent]
    obtain ⟨f, C, rfl⟩ : ∃ f C, K = f :: C := by
      cases K with
      | nil => simp at hKq
      | cons f C => exact ⟨f, C, rfl⟩
    obtain rfl : f.id = q := by simpa using hKq
    have hf := (holds_plug_frame.1 h.holds).2.1
    rw [hm] at hf
    rw [Option.some.inj hf, show ([t].map Tree.id) = [t.id] from rfl,
      Frame.replaceChild?_kind (Ctx.fits_of_plug (C := C) h.fits) (Frame.id_notMem h.nodup).2.1,
      Option.some.injEq] at hk
    subst hk
    exact ⟨_, Ctx.id_plug_cons, h.swapped hN hfit hn (h.apart_of_replaces hN hfit hn hmove hne)⟩
  · have hold : old ∉ T.ids := fun hT => hqT (h.holds.parent?_mem hT hparent)
    have hNT : N.id ∉ T.ids := by
      rcases hmove.2 with hl | hfree
      · exact fun hT => hold (h.holds.parent?_mem hT hl.2)
      · exact h.notMem_of_owner? hfree hne
    refine ⟨T, rfl, h.congr fun i hi => ?_⟩
    have h1 : i ≠ q := fun he => hqT (he ▸ hi)
    have h2 : i ≠ old := fun he => hold (he ▸ hi)
    have h3 : i ≠ N.id := fun he => hNT (he ▸ hi)
    rw [find?_swapped]
    simp [h1, h2, h3]

/-- A tree that is put below a node outside of the module's tree leaves it as it is. -/
theorem placed_outside {q : NodeId} {k : Kind} (h : s.HoldsModule T) (hq : q ∉ T.ids) (hj : j ∉ T.ids) :
    (s.placed q k j).HoldsModule T := by
  refine h.congr fun i hi => ?_
  have h1 : i ≠ q := fun he => hq (he ▸ hi)
  have h2 : i ≠ j := fun he => hj (he ▸ hi)
  rw [find?_placed]
  simp [h1, h2]

theorem insertBefore {anchor block : NodeId} (h : s.HoldsModule T) (hN : s.Holds p N) (hfit : N.Fits)
    (hn : N.ids.Nodup) (hne : N.id ≠ T.id) (hrun : Edit.insertBefore N.id anchor block s = .ok () s') :
    ∃ T' : Tree, T'.id = T.id ∧ s'.HoldsModule T' := by
  obtain ⟨m, k, hmove, hm, hk, rfl⟩ := (Edit.ends_insertBefore N.id anchor block).of_ok hrun
  have hout := h.apart_of_movable hN hmove hne
  by_cases hb : block ∈ T.ids
  · obtain ⟨C, b, rfl, rfl⟩ := Tree.exists_place hb
    have hbfit := Ctx.fits_of_plug h.fits
    rw [h.holds.inside.top, Option.some.injEq] at hm
    subst hm
    obtain ⟨f, t, rfl, rfl, hf⟩ := Tree.exists_frame_of_insertStatement? hbfit hk
    rw [Tree.root_kind, Frame.kind_plug, List.map_cons, List.map_nil,
      Frame.insertStatement?_kind hbfit hf (Frame.id_notMem (C := C) h.nodup).2.1, Option.some.injEq] at hk
    subst hk
    have hfits : (f.plug [N, t]).Fits := by
      have : ((f.push [N]).plug [t]).Fits := Frame.push_fits hbfit hf (by simpa using hfit)
      rwa [Frame.plug_push] at this
    rw [Frame.id_plug]
    exact ⟨_, Ctx.id_plug_congr (by simp), h.placed hN hn hfits hout⟩
  · exact ⟨T, rfl, h.placed_outside hb (hout _ N.id_mem_ids)⟩

theorem appendDeclaration {module : NodeId} (h : s.HoldsModule T) (hN : s.Holds p N) (hfit : N.Fits)
    (hn : N.ids.Nodup) (hne : N.id ≠ T.id) (hrun : Edit.appendDeclaration module N.id s = .ok () s') :
    ∃ T' : Tree, T'.id = T.id ∧ s'.HoldsModule T' := by
  obtain ⟨m, ks, hmove, hm, hk, rfl⟩ := (Edit.ends_appendDeclaration module N.id).of_ok hrun
  have hout := h.apart_of_movable hN hmove hne
  by_cases hb : module ∈ T.ids
  · obtain ⟨C, b, rfl, rfl⟩ := Tree.exists_place hb
    have hbfit := Ctx.fits_of_plug h.fits
    rw [h.holds.inside.top, Option.some.injEq] at hm
    subst hm
    obtain ⟨i, ty, body, rfl, rfl⟩ := hbfit.exists_body hk
    let f : Frame := ⟨i, ty, .module, .body, body, [], [], []⟩
    have hf : ∀ us, f.plug us = .node i ty .module [] (body ++ us) [] := fun us => by simp [f, Frame.plug]
    have hb : f.plug [] = .node i ty .module [] body [] := by simp [hf]
    have hfits : (f.plug [N]).Fits := by
      rw [hf, Tree.fits_iff]
      refine ⟨by simp [Label.Fits], fun k hk => ?_⟩
      simp only [Tree.kids_node, List.nil_append, List.append_nil, List.mem_append, List.mem_singleton] at hk
      rcases hk with hk | rfl
      · exact hbfit.kid (by simp [hk])
      · exact hfit
    have hkind : f.kind ([N].map Tree.id) = .module (body.map Tree.id ++ [N.id]) := by
      simp [f, Frame.kind, Label.kind]
    rw [← hb] at h hout ⊢
    rw [← hkind, Frame.id_plug]
    exact ⟨_, Ctx.id_plug_congr (by simp), h.placed hN hn hfits hout⟩
  · exact ⟨T, rfl, h.placed_outside hb (hout _ N.id_mem_ids)⟩

theorem alloc {k : Kind} (h : s.HoldsModule T) (hne : T.id ∉ k.children) (ty : Option Ty) :
    Ends (Edit.alloc k ty) s (fun _ s' => s'.HoldsModule T) fun _ _ => True := by
  refine (Edit.ends_alloc k ty).mono ?_ fun _ _ _ => trivial
  rintro _ _ ⟨-, -, hfree, rfl⟩
  refine h.congr fun i hi => ?_
  obtain ⟨n, hn⟩ := Option.isSome_iff_exists.1 (contains_iff.2 (h.holds.mem_ids hi))
  have hik : i ∉ k.children := fun hik => h.notMem_of_owner? (hfree i hik).2 (fun he => hne (he ▸ hik)) hi
  rw [find?_adopt, show (s.added _).find? i = (s.push _).find? i from rfl, find?_push, hn]
  simp [hik]

/-- Nodes outside of the module's tree are discarded, with what they own. -/
theorem discardAll (h : s.HoldsModule T) (stack : List NodeId) (hout : ∀ i ∈ stack, i ∉ T.ids) :
    (s.discardAll stack).HoldsModule T := by
  fun_induction Store.discardAll s stack with
  | case1 s => exact h
  | case2 s i stack _ ih => exact ih h fun j hj => hout j (List.mem_cons_of_mem _ hj)
  | case3 s i stack n _ rest ih =>
    have hi : i ∉ T.ids := hout i List.mem_cons_self
    have hrest : rest.HoldsModule T := h.congr fun j hj => by
      have hji : j ≠ i := fun he => hi (he ▸ hj)
      rw [find?_erase, if_neg hji]
    refine ih hrest fun j hj => ?_
    rcases List.mem_append.1 hj with hj | hj
    · have hp : rest.parent? j = some i := by simpa using (List.mem_filter.1 hj).2
      exact fun hT => hi (hrest.holds.parent?_mem hT hp)
    · exact hout j (List.mem_cons_of_mem _ hj)

theorem discard (h : s.HoldsModule T) (hne : i ≠ T.id) (hrun : Edit.discard i s = .ok () s') :
    s'.HoldsModule T := by
  obtain ⟨hfree, rfl⟩ := Edit.ends_discard.of_ok hrun
  exact h.discardAll [i] (by simpa using h.notMem_of_owner? hfree.2 hne)

end HoldsModule

end Store

namespace Edit

/-- A call of a primitive edit. -/
inductive Call where
  | replace (old new : NodeId)
  | insertBefore (stmt anchor block : NodeId)
  | appendDeclaration (module decl : NodeId)
  | alloc (kind : Kind) (ty : Option Ty)
  | discard (id : NodeId)

namespace Call

def run : Call → Edit Unit
  | .replace old new => Edit.replace old new
  | .insertBefore stmt anchor block => Edit.insertBefore stmt anchor block
  | .appendDeclaration module decl => Edit.appendDeclaration module decl
  | .alloc kind ty => do
    let _ ← Edit.alloc kind ty
    return ()
  | .discard id => Edit.discard id

/-- The node that is moved to another place. -/
def moved? : Call → Option NodeId
  | .replace _ new => some new
  | .insertBefore stmt _ _ => some stmt
  | .appendDeclaration _ decl => some decl
  | .alloc _ _ | .discard _ => none

/-- The nodes that are moved, adopted or discarded. -/
def taken : Call → List NodeId
  | .replace _ new => [new]
  | .insertBefore stmt _ _ => [stmt]
  | .appendDeclaration _ decl => [decl]
  | .alloc kind _ => kind.children
  | .discard id => [id]

end Call

variable {s s' : Store} {m : NodeId}

/-- A primitive edit that succeeds keeps every module consistent, if the tree that it moves is well linked and
the module itself is not what it moves, adopts or discards. -/
theorem verify_call (hs : s.ids.Nodup) (hm : (s.kind? m).any Kind.isModule) (hv : s.verify m = .ok ())
    (call : Call) (hlinked : ∀ i ∈ call.moved?, s.Linked i) (hm' : m ∉ call.taken)
    (hrun : call.run s = .ok () s') : s'.verify m = .ok () := by
  obtain ⟨T, rfl, hT⟩ := Store.exists_holdsModule hs hm hv
  have hmoved : ∀ i ∈ call.moved?, ∃ N : Tree, N.id = i ∧ N.Fits ∧ N.ids.Nodup ∧ s.Holds (s.parent? i) N :=
    fun i hi => Store.linked_iff.1 (hlinked i hi)
  suffices ∃ T' : Tree, T'.id = T.id ∧ s'.HoldsModule T' by
    obtain ⟨T', hid, hT'⟩ := this
    exact hid ▸ hT'.verify
  cases call with
  | replace old new =>
    obtain ⟨N, rfl, hfit, hn, hN⟩ := hmoved new rfl
    exact hT.replace hN hfit hn (by simpa [Call.taken, eq_comm] using hm') hrun
  | insertBefore stmt anchor block =>
    obtain ⟨N, rfl, hfit, hn, hN⟩ := hmoved stmt rfl
    exact hT.insertBefore hN hfit hn (by simpa [Call.taken, eq_comm] using hm') hrun
  | appendDeclaration module decl =>
    obtain ⟨N, rfl, hfit, hn, hN⟩ := hmoved decl rfl
    exact hT.appendDeclaration hN hfit hn (by simpa [Call.taken, eq_comm] using hm') hrun
  | alloc kind ty =>
    have hends : Ends (Call.alloc kind ty).run s (fun _ s' => s'.HoldsModule T) fun _ _ => True :=
      ends_bind.2 (hT.alloc hm' ty)
    exact ⟨T, rfl, hends.of_ok hrun⟩
  | discard id => exact ⟨T, rfl, hT.discard (by simpa [Call.taken, eq_comm] using hm') hrun⟩

/-- A function that returns `not not ok`, beside a detached `return` that still lists the `ok`. -/
def doubled : Store where
  nextId := ⟨7⟩
  nodes := [
    { id := ⟨0⟩, kind := .module [⟨1⟩] },
    { id := ⟨1⟩, parent := some ⟨0⟩, kind := .functionDef "f" [] [⟨2⟩] .external .view },
    { id := ⟨2⟩, parent := some ⟨1⟩, kind := .ret (some ⟨3⟩) },
    { id := ⟨3⟩, parent := some ⟨2⟩, kind := .unaryOp .not ⟨4⟩ },
    { id := ⟨4⟩, parent := some ⟨3⟩, kind := .unaryOp .not ⟨5⟩ },
    { id := ⟨5⟩, parent := some ⟨4⟩, kind := .name "ok" },
    { id := ⟨6⟩, kind := .ret (some ⟨5⟩) }]

/-- The operand takes the place of the negation around it, which leaves. -/
theorem verify_call_doubled : ∃ s', (Call.replace ⟨4⟩ ⟨5⟩).run doubled = .ok () s' ∧ s'.verify ⟨0⟩ = .ok () := by
  have hlinked : doubled.Linked ⟨5⟩ :=
    Store.linked_iff.2 ⟨.node ⟨5⟩ none (.name "ok") [] [] [], rfl,
      (Tree.fits_iff _).2 ⟨⟨rfl, rfl, rfl⟩, by simp⟩, by decide,
      Store.holds_iff.2 ⟨rfl, by simp⟩⟩
  refine ⟨_, rfl, verify_call (s := doubled) (m := ⟨0⟩) (by decide) (by decide) (by decide +kernel)
    (.replace ⟨4⟩ ⟨5⟩) ?_ (by decide) rfl⟩
  rintro i ⟨⟩
  exact hlinked

end Edit

end ContractTree
