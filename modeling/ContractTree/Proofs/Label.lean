import ContractTree.Node.Basic
import Mathlib.Tactic.SplitIfs

/-!
Kinds without their links. A kind is a label and three lists of links: the heads, which stand outside the
statement lists, and the statement lists `body` and `orelse`. `Label.kind` puts a kind together, and what it puts
together is taken apart again by `Kind.label`, `Kind.heads`, `Kind.body` and `Kind.orelse` (`Label.Fits` says how
many links a label takes).

Both changes of links are changes of one of the three lists: `Kind.replaceChild?_eq`, `Kind.insertStatement?_eq`.
-/

namespace ContractTree

/-- What a node is, without the links to its children. -/
inductive Label where
  | module
  | variableDecl (isPublic isConstant isImmutable : Bool)
  | functionDef (name : String) (visibility : Visibility) (mutability : Mutability)
  | arg (name : String)
  | assign
  | augAssign (op : BinOp)
  | annAssign
  | ret
  | exprStmt
  | ifElse
  | forIn
  | assert
  | pass
  | storageRead
  | storageWrite
  | name (id : String)
  | member (attr : String)
  | subscript
  | binOp (op : BinOp)
  | boolOp (op : BoolOp)
  | compare (op : CompareOp)
  | unaryOp (op : UnaryOp)
  | call
  | int (value : Int)
  | bool (value : Bool)
  | str (value : String)
  deriving DecidableEq, Repr

namespace Kind

def label : Kind → Label
  | .module _ => .module
  | .variableDecl _ _ p c i => .variableDecl p c i
  | .functionDef f _ _ v m => .functionDef f v m
  | .arg n => .arg n
  | .assign _ _ => .assign
  | .augAssign _ op _ => .augAssign op
  | .annAssign _ _ => .annAssign
  | .ret _ => .ret
  | .exprStmt _ => .exprStmt
  | .ifElse _ _ _ => .ifElse
  | .forIn _ _ _ => .forIn
  | .assert _ => .assert
  | .pass => .pass
  | .storageRead _ _ _ => .storageRead
  | .storageWrite _ _ _ => .storageWrite
  | .name x => .name x
  | .member _ attr => .member attr
  | .subscript _ _ => .subscript
  | .binOp _ op _ => .binOp op
  | .boolOp op _ => .boolOp op
  | .compare _ op _ => .compare op
  | .unaryOp op _ => .unaryOp op
  | .call _ _ => .call
  | .int v => .int v
  | .bool v => .bool v
  | .str v => .str v

/-- The first statement list. -/
def body : Kind → List NodeId
  | .module body => body
  | .functionDef _ _ body _ _ => body
  | .ifElse _ body _ => body
  | .forIn _ _ body => body
  | _ => []

/-- The second statement list. -/
def orelse : Kind → List NodeId
  | .ifElse _ _ orelse => orelse
  | _ => []

/-- The children that stand outside the statement lists. -/
def heads : Kind → List NodeId
  | .module _ => []
  | .functionDef _ args _ _ _ => args
  | .ifElse test _ _ => [test]
  | .forIn target iter _ => [target, iter]
  | k => k.children

end Kind

namespace Label

/-- The kind with this label and these links. -/
def kind : Label → List NodeId → List NodeId → List NodeId → Kind
  | .module, _, body, _ => .module body
  | .variableDecl p c i, target :: value, _, _ => .variableDecl target value.head? p c i
  | .functionDef f v m, args, body, _ => .functionDef f args body v m
  | .arg n, _, _, _ => .arg n
  | .assign, [target, value], _, _ => .assign target value
  | .augAssign op, [target, value], _, _ => .augAssign target op value
  | .annAssign, target :: value, _, _ => .annAssign target value.head?
  | .ret, value, _, _ => .ret value.head?
  | .exprStmt, [value], _, _ => .exprStmt value
  | .ifElse, [test], body, orelse => .ifElse test body orelse
  | .forIn, [target, iter], body, _ => .forIn target iter body
  | .assert, [test], _, _ => .assert test
  | .storageRead, target :: slot :: keys, _, _ => .storageRead target slot keys
  | .storageWrite, slot :: operands, _, _ =>
    .storageWrite slot operands.dropLast (operands.getLast?.getD slot)
  | .name x, _, _, _ => .name x
  | .member attr, [value], _, _ => .member value attr
  | .subscript, [value, slice], _, _ => .subscript value slice
  | .binOp op, [left, right], _, _ => .binOp left op right
  | .boolOp op, values, _, _ => .boolOp op values
  | .compare op, [left, right], _, _ => .compare left op right
  | .unaryOp op, [operand], _, _ => .unaryOp op operand
  | .call, func :: args, _, _ => .call func args
  | .int v, _, _, _ => .int v
  | .bool v, _, _, _ => .bool v
  | .str v, _, _, _ => .str v
  | _, _, _, _ => .pass

/-- Whether a kind with this label has so many heads, and statement lists of these lengths. -/
def Fits : Label → Nat → Nat → Nat → Prop
  | .module, h, _, o => h = 0 ∧ o = 0
  | .functionDef _ _ _, _, _, o => o = 0
  | .ifElse, h, _, _ => h = 1
  | .forIn, h, _, o => h = 2 ∧ o = 0
  | .variableDecl _ _ _, h, b, o => 1 ≤ h ∧ h ≤ 2 ∧ b = 0 ∧ o = 0
  | .annAssign, h, b, o => 1 ≤ h ∧ h ≤ 2 ∧ b = 0 ∧ o = 0
  | .ret, h, b, o => h ≤ 1 ∧ b = 0 ∧ o = 0
  | .storageRead, h, b, o => 2 ≤ h ∧ b = 0 ∧ o = 0
  | .storageWrite, h, b, o => 2 ≤ h ∧ b = 0 ∧ o = 0
  | .call, h, b, o => 1 ≤ h ∧ b = 0 ∧ o = 0
  | .boolOp _, _, b, o => b = 0 ∧ o = 0
  | .assign, h, b, o => h = 2 ∧ b = 0 ∧ o = 0
  | .augAssign _, h, b, o => h = 2 ∧ b = 0 ∧ o = 0
  | .subscript, h, b, o => h = 2 ∧ b = 0 ∧ o = 0
  | .binOp _, h, b, o => h = 2 ∧ b = 0 ∧ o = 0
  | .compare _, h, b, o => h = 2 ∧ b = 0 ∧ o = 0
  | .exprStmt, h, b, o => h = 1 ∧ b = 0 ∧ o = 0
  | .assert, h, b, o => h = 1 ∧ b = 0 ∧ o = 0
  | .member _, h, b, o => h = 1 ∧ b = 0 ∧ o = 0
  | .unaryOp _, h, b, o => h = 1 ∧ b = 0 ∧ o = 0
  | _, h, b, o => h = 0 ∧ b = 0 ∧ o = 0

end Label

/-! ## Lists of links -/

section Links

variable {old new anchor : NodeId} {xs ys : List NodeId}

theorem replaceFirst?_append :
    replaceFirst? old new (xs ++ ys) =
      ((replaceFirst? old new xs).map (· ++ ys)).or ((replaceFirst? old new ys).map (xs ++ ·)) := by
  induction xs with
  | nil => simp [replaceFirst?]
  | cons x xs ih =>
    by_cases h : x = old
    · simp [replaceFirst?, h]
    · simp only [List.cons_append, replaceFirst?, h, if_false, ih, Option.map_or, Option.map_map]
      rfl

theorem replaceFirst?_of_notMem (h : old ∉ xs) : replaceFirst? old new xs = none := by
  induction xs with
  | nil => rfl
  | cons x xs ih =>
    rw [List.mem_cons, not_or] at h
    simp [replaceFirst?, Ne.symm h.1, ih h.2]

theorem replaceFirst?_middle (h : old ∉ xs) :
    replaceFirst? old new (xs ++ old :: ys) = some (xs ++ new :: ys) := by
  rw [replaceFirst?_append, replaceFirst?_of_notMem h]
  simp [replaceFirst?]

theorem insertBefore?_of_notMem (h : anchor ∉ xs) : insertBefore? new anchor xs = none := by
  induction xs with
  | nil => rfl
  | cons x xs ih =>
    rw [List.mem_cons, not_or] at h
    simp [insertBefore?, Ne.symm h.1, ih h.2]

theorem insertBefore?_middle (h : anchor ∉ xs) :
    insertBefore? new anchor (xs ++ anchor :: ys) = some (xs ++ new :: anchor :: ys) := by
  induction xs with
  | nil => simp [insertBefore?]
  | cons x xs ih =>
    rw [List.mem_cons, not_or] at h
    simp [insertBefore?, Ne.symm h.1, ih h.2]

end Links

/-! ## Kinds and their parts -/

namespace Kind

variable (k : Kind) (old new : NodeId)

theorem children_eq : k.children = k.heads ++ k.body ++ k.orelse := by
  cases k <;> simp [heads, body, orelse, children]

theorem fits : k.label.Fits k.heads.length k.body.length k.orelse.length := by
  cases k with
  | variableDecl target value p c i => cases value <;> simp [label, heads, children, body, orelse, Label.Fits]
  | annAssign target value => cases value <;> simp [label, heads, children, body, orelse, Label.Fits]
  | ret value => cases value <;> simp [label, heads, children, body, orelse, Label.Fits]
  | _ => simp [label, heads, children, body, orelse, Label.Fits]

/-- A kind is put together from its own parts. -/
theorem kind_label : k.label.kind k.heads k.body k.orelse = k := by
  cases k with
  | variableDecl target value p c i => cases value <;> rfl
  | annAssign target value => cases value <;> rfl
  | ret value => cases value <;> rfl
  | storageWrite slot keys value => simp [label, heads, children, Label.kind]
  | _ => rfl

theorem holdsStatement_iff (id : NodeId) : k.holdsStatement id = true ↔ id ∈ k.body ∨ id ∈ k.orelse := by
  cases k <;> simp [holdsStatement, statementLists, body, orelse]

/-- The first link to `old` is looked for in the heads, then in the statement lists. -/
theorem replaceChild?_eq :
    k.replaceChild? old new =
      ((replaceFirst? old new k.heads).map fun hs => k.label.kind hs k.body k.orelse).or
        (((replaceFirst? old new k.body).map fun bs => k.label.kind k.heads bs k.orelse).or
          ((replaceFirst? old new k.orelse).map fun os => k.label.kind k.heads k.body os)) := by
  cases k with
  | variableDecl target value p c i =>
    cases value <;> simp only [replaceChild?, heads, children, body, orelse, label, replaceFirst?,
      Option.toList] <;> split_ifs <;> first | rfl | simp_all
  | annAssign target value =>
    cases value <;> simp only [replaceChild?, heads, children, body, orelse, label, replaceFirst?,
      Option.toList] <;> split_ifs <;> first | rfl | simp_all
  | ret value =>
    cases value <;> simp only [replaceChild?, heads, children, body, orelse, label, replaceFirst?,
      Option.toList] <;> split_ifs <;> first | rfl | simp_all
  | storageWrite slot keys value =>
    simp only [replaceChild?, heads, children, body, orelse, label, replaceFirst?, replaceFirst?_append]
    cases replaceFirst? old new keys <;> split_ifs <;> first | rfl | simp [Label.kind]
  | _ =>
    simp only [replaceChild?, heads, children, body, orelse, label, replaceFirst?]
    all_goals try split_ifs
    all_goals first | rfl | simp [Label.kind, Function.comp_def]

/-- A statement is put into one of the statement lists. -/
theorem insertStatement?_eq (anchor : NodeId) :
    k.insertStatement? new anchor =
      ((insertBefore? new anchor k.body).map fun bs => k.label.kind k.heads bs k.orelse).or
        ((insertBefore? new anchor k.orelse).map fun os => k.label.kind k.heads k.body os) := by
  cases k <;> simp [insertStatement?, insertBefore?, heads, children, body, orelse, label, Label.kind]

end Kind

namespace Label

variable {l : Label} {hs bs os : List NodeId}

/-- The parts of a kind that was put together. -/
theorem parts_kind (h : l.Fits hs.length bs.length os.length) :
    (l.kind hs bs os).label = l ∧ (l.kind hs bs os).heads = hs ∧ (l.kind hs bs os).body = bs ∧
      (l.kind hs bs os).orelse = os := by
  cases l with
  | storageWrite =>
    obtain ⟨h, hb, ho⟩ := h
    obtain ⟨slot, operands, rfl⟩ := List.exists_cons_of_length_pos (by omega : 0 < hs.length)
    rw [List.length_eq_zero_iff] at hb ho
    rcases List.eq_nil_or_concat operands with rfl | ⟨keys, value, rfl⟩
    · simp at h
    · simp [kind, Kind.label, Kind.heads, Kind.children, Kind.body, Kind.orelse, hb, ho]
  | _ =>
    rcases hs with _ | ⟨a, _ | ⟨b, hs⟩⟩ <;>
      simp_all [Fits, kind, Kind.label, Kind.heads, Kind.children, Kind.body, Kind.orelse]

end Label

end ContractTree
