import ContractTree.Node.Document
import ContractTree.Proofs.Label

/-!
The views of a node's links agree. A kind shows its links as children, as the contents of its named fields and as
statement lists, and each of these goes over the kinds on its own. They list the same links in one order, and a
changed link is the first one in all of them: it stays in the field and at the index where it was
(`Kind.links_agree`).
-/

namespace ContractTree

/-- One link is changed, the first of those to `old`. -/
theorem replaceFirst?_eq_some_iff {old new : NodeId} {xs ys : List NodeId} :
    replaceFirst? old new xs = some ys ↔ ∃ l r, old ∉ l ∧ xs = l ++ old :: r ∧ ys = l ++ new :: r := by
  constructor
  · intro h
    induction xs generalizing ys with
    | nil => simp [replaceFirst?] at h
    | cons x xs ih =>
      by_cases hx : x = old
      · rw [replaceFirst?, if_pos hx, Option.some.injEq] at h
        exact ⟨[], xs, by simp, by simp [hx], h.symm⟩
      · rw [replaceFirst?, if_neg hx] at h
        obtain ⟨zs, hzs, rfl⟩ := Option.map_eq_some_iff.1 h
        obtain ⟨l, r, hl, rfl, rfl⟩ := ih hzs
        exact ⟨x :: l, r, by simp [hl, Ne.symm hx], rfl, rfl⟩
  · rintro ⟨l, r, hl, rfl, rfl⟩
    exact replaceFirst?_middle hl

theorem length_of_replaceFirst? {old new : NodeId} {xs ys : List NodeId} (h : replaceFirst? old new xs = some ys) :
    ys.length = xs.length := by
  obtain ⟨l, r, -, rfl, rfl⟩ := replaceFirst?_eq_some_iff.1 h
  simp

theorem replaceFirst?_isSome_iff {old new : NodeId} {xs : List NodeId} :
    (replaceFirst? old new xs).isSome = true ↔ old ∈ xs := by
  constructor
  · refine Decidable.not_imp_not.1 fun hn => ?_
    simp [replaceFirst?_of_notMem hn]
  · intro h
    obtain ⟨l, r, rfl, hl⟩ := List.eq_append_cons_of_mem h
    simp [replaceFirst?_middle hl]

/-! ## Fields without identities -/

namespace Slot

/-- What a field holds, without the identities of its links. -/
inductive Form where
  | child
  | childOption (present : Bool)
  | childList (length : Nat)
  | data (j : Json)

def form : Slot → Form
  | .child _ => .child
  | .childOption id => .childOption id.isSome
  | .childList ids => .childList ids.length
  | .data j => .data j

end Slot

namespace Kind

/-- The fields by name, without the identities of the links in them. -/
def forms (k : Kind) : List (String × Slot.Form) := k.slots.map fun f => (f.1, f.2.form)

theorem flatMap_ids_slots (k : Kind) : k.slots.flatMap (·.2.ids) = k.children := by
  cases k <;> simp [slots, Slot.ids, children]

theorem flatten_statementLists (k : Kind) : k.statementLists.flatten = k.body ++ k.orelse := by
  cases k <;> simp [statementLists, body, orelse]

theorem tag_eq_of_label {k k' : Kind} (h : k'.label = k.label) : k'.tag = k.tag := by
  cases k <;> cases k' <;> first | rfl | cases h

end Kind

/-- The form of a kind depends on its label and on how many links it has in each part. -/
theorem Label.forms_kind {l : Label} {hs bs os hs' bs' os' : List NodeId} (hh : hs'.length = hs.length)
    (hb : bs'.length = bs.length) (ho : os'.length = os.length) :
    (l.kind hs' bs' os').forms = (l.kind hs bs os).forms ∧
      (l.kind hs' bs' os').statementLists.map List.length = (l.kind hs bs os).statementLists.map List.length := by
  cases l with
  | storageWrite =>
    rcases hs with _ | ⟨a, hs⟩ <;> rcases hs' with _ | ⟨a', hs'⟩ <;>
      simp_all [kind, Kind.forms, Kind.slots, Slot.form, Kind.statementLists]
  | _ =>
    rcases hs with _ | ⟨a, _ | ⟨b, _ | ⟨c, hs⟩⟩⟩ <;> rcases hs' with _ | ⟨a', _ | ⟨b', _ | ⟨c', hs'⟩⟩⟩ <;>
      simp_all [kind, Kind.forms, Kind.slots, Slot.form, Kind.statementLists]

/-! ## Changing a link -/

namespace Kind

variable {k k' : Kind} {old new : NodeId}

theorem replaceChild?_isSome_iff (k : Kind) (old new : NodeId) :
    (k.replaceChild? old new).isSome = true ↔ old ∈ k.children := by
  rw [replaceChild?_eq, children_eq, List.mem_append, List.mem_append]
  simp [replaceFirst?_isSome_iff, or_assoc]

/-- What a change of a link leaves: the label over three lists of links, of which one has the link changed. -/
theorem exists_parts_of_replaceChild? (h : k.replaceChild? old new = some k') :
    ∃ hs bs os, k' = k.label.kind hs bs os ∧ hs.length = k.heads.length ∧ bs.length = k.body.length ∧
      os.length = k.orelse.length ∧ replaceFirst? old new k.children = some (hs ++ bs ++ os) := by
  rw [replaceChild?_eq, Option.or_eq_some_iff, Option.or_eq_some_iff] at h
  rw [children_eq, replaceFirst?_append, replaceFirst?_append]
  rcases h with h | ⟨hheads, h | ⟨hbody, h⟩⟩
  · obtain ⟨hs, hhs, rfl⟩ := Option.map_eq_some_iff.1 h
    exact ⟨hs, k.body, k.orelse, rfl, length_of_replaceFirst? hhs, rfl, rfl, by simp [hhs]⟩
  · obtain ⟨bs, hbs, rfl⟩ := Option.map_eq_some_iff.1 h
    rw [Option.map_eq_none_iff] at hheads
    exact ⟨k.heads, bs, k.orelse, rfl, rfl, length_of_replaceFirst? hbs, rfl, by simp [hheads, hbs]⟩
  · obtain ⟨os, hos, rfl⟩ := Option.map_eq_some_iff.1 h
    rw [Option.map_eq_none_iff] at hheads hbody
    exact ⟨k.heads, k.body, os, rfl, rfl, rfl, length_of_replaceFirst? hos, by simp [hheads, hbody, hos]⟩

/-- A change of a link changes the first link to `old` among the children, and nothing besides. -/
theorem replaceChild?_changes (h : k.replaceChild? old new = some k') :
    k'.label = k.label ∧ k'.forms = k.forms ∧
      k'.statementLists.map List.length = k.statementLists.map List.length ∧
      ∃ l r, old ∉ l ∧ k.children = l ++ old :: r ∧ k'.children = l ++ new :: r := by
  obtain ⟨hs, bs, os, rfl, hh, hb, ho, hfirst⟩ := exists_parts_of_replaceChild? h
  have hfits : k.label.Fits hs.length bs.length os.length := by
    rw [hh, hb, ho]
    exact k.fits
  obtain ⟨hlabel, hheads, hbody, horelse⟩ := Label.parts_kind hfits
  obtain ⟨hforms, hlists⟩ := Label.forms_kind (l := k.label) hh hb ho
  rw [k.kind_label] at hforms hlists
  refine ⟨hlabel, hforms, hlists, ?_⟩
  rw [children_eq (k.label.kind hs bs os), hheads, hbody, horelse]
  exact replaceFirst?_eq_some_iff.1 hfirst

/-- **The views of the links agree, for every kind.** The children are the links in the fields, in the order of the
fields, and end with the statement lists. A link to `old` can be changed exactly if `old` is a child. Then the
first such child is `new` instead, and nothing else is different: the tag and all data are the same, and every
field and every statement list has as many links as before. If `old` is no child, the kind stays as it is. -/
theorem links_agree (k : Kind) (old new : NodeId) :
    k.slots.flatMap (·.2.ids) = k.children ∧ k.statementLists.flatten <:+ k.children ∧
      ((k.replaceChild? old new).isSome = true ↔ old ∈ k.children) ∧
      (∀ k', k.replaceChild? old new = some k' →
        k'.tag = k.tag ∧ k'.label = k.label ∧ k'.forms = k.forms ∧
          k'.statementLists.map List.length = k.statementLists.map List.length ∧
          ∃ l r, old ∉ l ∧ k.children = l ++ old :: r ∧ k'.children = l ++ new :: r) ∧
      (old ∉ k.children → (k.replaceChild? old new).getD k = k) := by
  refine ⟨k.flatMap_ids_slots, ?_, replaceChild?_isSome_iff k old new, fun k' h => ?_, fun h => ?_⟩
  · rw [flatten_statementLists, children_eq, List.append_assoc]
    exact List.suffix_append _ _
  · have hchanges := replaceChild?_changes h
    exact ⟨tag_eq_of_label hchanges.1, hchanges⟩
  · rw [← replaceChild?_isSome_iff k old new, Option.not_isSome_iff_eq_none] at h
    rw [h, Option.getD_none]

/-- In a branch whose two lists share a statement, only the one in the first list is changed. -/
theorem links_agree_branch :
    (ifElse ⟨0⟩ [⟨1⟩, ⟨2⟩] [⟨2⟩, ⟨0⟩]).replaceChild? ⟨2⟩ ⟨7⟩ = some (ifElse ⟨0⟩ [⟨1⟩, ⟨7⟩] [⟨2⟩, ⟨0⟩]) ∧
      (ifElse ⟨0⟩ [⟨1⟩, ⟨7⟩] [⟨2⟩, ⟨0⟩]).forms = (ifElse ⟨0⟩ [⟨1⟩, ⟨2⟩] [⟨2⟩, ⟨0⟩]).forms :=
  have h : (ifElse ⟨0⟩ [⟨1⟩, ⟨2⟩] [⟨2⟩, ⟨0⟩]).replaceChild? ⟨2⟩ ⟨7⟩ = some (ifElse ⟨0⟩ [⟨1⟩, ⟨7⟩] [⟨2⟩, ⟨0⟩]) := by
    decide
  ⟨h, ((links_agree (ifElse ⟨0⟩ [⟨1⟩, ⟨2⟩] [⟨2⟩, ⟨0⟩]) ⟨2⟩ ⟨7⟩).2.2.2.1 _ h).2.2.1⟩

end Kind

end ContractTree
