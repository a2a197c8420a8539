import ScriptTyping.Proofs.Everywhere
import ScriptTyping.Proofs.Visits

/-!
# Declared variables

The variables that a tree declares are found by a walk through all of its nodes. This module says where
they are: a node declares them itself, or a node right below it has them (`Node.mem_declared_iff`). When a
tree is numbered, the walk finds the numbers in order, so each variable has a slot of its own
(`Node.nodup_slots_numbered`), and literals stay literals (`Node.literals_numbered`).
-/

namespace ScriptTyping

open List VariableOf Node

namespace Node

/-! ## The variables of a tree -/

/-- The nodes right below a node in which there can be variables. A call that is awaited is passed over,
since it is not visited by itself. -/
def inside : Node → List Node
  | block body => body
  | whileLoop cond body => [cond, body]
  | forLoop init cond step body => [init, cond, step, body]
  | lets vars => vars.map value
  | var v => [v.value]
  | func _ _ body | lambda _ body => [body]
  | enumDecl d => d.variants.map VariantOf.value
  | member x _ _ | structLit _ x => [x]
  | array elems => elems
  | n => n.condition?.toList ++ n.parts

theorem sizeOf_inside {n m : Node} (h : m ∈ n.inside) : sizeOf m < sizeOf n := by
  have hmem {ns : List Node} (hm : m ∈ ns) : sizeOf m < sizeOf ns := sizeOf_lt_of_mem hm
  cases n with
  | program ns | block ns | sequence ns | array ns =>
    have hlt : sizeOf m < sizeOf ns := hmem h
    simp only [program.sizeOf_spec, block.sizeOf_spec, sequence.sizeOf_spec, array.sizeOf_spec]
    omega
  | lets vs =>
    obtain ⟨⟨name, ann, value, slot⟩, hv, rfl⟩ := mem_map.1 h
    have hlt := sizeOf_lt_of_mem hv
    simp only [mk.sizeOf_spec, lets.sizeOf_spec] at hlt ⊢
    omega
  | enumDecl d =>
    obtain ⟨⟨name, kind, tuple, fields, value⟩, hv, rfl⟩ := mem_map.1 h
    cases d
    have hlt := sizeOf_lt_of_mem hv
    simp only [VariantOf.mk.sizeOf_spec, enumDecl.sizeOf_spec, EnumDeclOf.mk.sizeOf_spec] at hlt ⊢
    omega
  | object props =>
    obtain ⟨⟨key, value⟩, hp, rfl⟩ := mem_map.1 h
    have hlt := sizeOf_lt_of_mem hp
    simp only [Prod.mk.sizeOf_spec, object.sizeOf_spec] at hlt ⊢
    omega
  | var v =>
    obtain ⟨name, ann, value, slot⟩ := v
    obtain rfl := mem_singleton.1 h
    simp only [mk.sizeOf_spec, var.sizeOf_spec]
    omega
  | call callee args =>
    rcases mem_cons.1 h with rfl | hm
    · simp only [call.sizeOf_spec]
      omega
    · have hlt := hmem hm
      simp only [call.sizeOf_spec]
      omega
  | await expr =>
    cases expr with
    | call callee args =>
      rcases mem_cons.1 h with rfl | hm
      · simp only [await.sizeOf_spec, call.sizeOf_spec]
        omega
      · have hlt := hmem hm
        simp only [await.sizeOf_spec, call.sizeOf_spec]
        omega
    | _ =>
      obtain rfl := mem_singleton.1 h
      simp
  | ifElse _ _ _ | ternary _ _ _ =>
    simp only [inside, condition?, parts, Option.toList_some, singleton_append, mem_cons,
      not_mem_nil, or_false] at h
    simp only [ifElse.sizeOf_spec, ternary.sizeOf_spec]
    rcases h with rfl | rfl | rfl <;> omega
  | whileLoop _ _ | forLoop _ _ _ _ | binary _ _ _ | logical _ _ _ | assign _ _ _ | index _ _ =>
    simp only [inside, condition?, parts, Option.toList_none, nil_append, mem_cons,
      not_mem_nil, or_false] at h
    simp only [whileLoop.sizeOf_spec, forLoop.sizeOf_spec, binary.sizeOf_spec, logical.sizeOf_spec,
      assign.sizeOf_spec, index.sizeOf_spec]
    rcases h with rfl | rfl | rfl | rfl <;> omega
  | exprStmt x | returns x | func _ _ x | lambda _ x | unary _ x | update _ x _ | member x _ _ | structLit _ x =>
    obtain rfl := mem_singleton.1 h
    simp only [exprStmt.sizeOf_spec, returns.sizeOf_spec, func.sizeOf_spec, lambda.sizeOf_spec,
      unary.sizeOf_spec, update.sizeOf_spec, member.sizeOf_spec, structLit.sizeOf_spec]
    omega
  | _ => simp [inside, condition?, parts] at h

/-- The walk through all nodes. -/
abbrev nodes : Node → List Node := walk fun _ => true

theorem mem_declared {n : Node} {v : Variable} : v ∈ n.declared ↔ var v ∈ n.nodes := by
  unfold declared
  rw [mem_filterMap]
  constructor
  · rintro ⟨m, hm, hv⟩
    split at hv
    · exact Option.some.inj hv ▸ hm
    · cases hv
  · exact fun h => ⟨var v, h, rfl⟩

section

variable {P : Node → Prop} {n : Node}

/-- What holds everywhere in a tree holds everywhere in the nodes right below. -/
theorem All.inside (h : All P n) : ∀ m ∈ n.inside, All P m := by
  rw [all_iff_parts] at h
  cases n with
  | await expr =>
    cases expr with
    | call callee args => exact forall_mem_cons.2 (all_iff_parts.1 h.2).2
    | _ => exact forall_mem_singleton.2 h.2
  | lets vars => exact forall_mem_map.2 fun v hv => (h.2 v hv).2.2
  | enumDecl d => exact forall_mem_map.2 fun v hv => (h.2 v hv).2.2
  | object props => exact forall_mem_map.2 h.2
  | _ => simp_all [Parts, Node.inside, condition?, Node.parts]

/-- What holds of all nodes but variables holds everywhere in a tree if it holds of the variables that the
first node declares, and everywhere in the nodes right below. -/
theorem all_iff_inside (hP : ∀ x, (∀ u, x ≠ var u) → P x) :
    All P n ↔ (∀ u ∈ n.variables, P (var u)) ∧ ∀ m ∈ n.inside, All P m := by
  have htype {t : TypeExpr} : AllTypes P t := fun u _ => hP _ fun _ => by simp
  rw [all_iff_parts]
  cases n with
  | await expr =>
    cases expr with
    | call callee args =>
      have hcall : All P (call callee args) ↔ Parts P (call callee args) := all_iff_parts
      simp [Parts, hcall, hP, inside, condition?, parts, Node.variables]
    | _ => simp [Parts, hP, inside, condition?, parts, Node.variables]
  | lets vars => simp [Parts, hP, htype, inside, Node.variables, imp_and, forall_and]
  | object props =>
    refine ⟨fun h => ⟨by simp [Node.variables], forall_mem_map.2 h.2⟩, fun h => ?_⟩
    exact ⟨hP _ (by simp), forall_mem_map.1 h.2⟩
  | _ => simp [Parts, hP, htype, inside, condition?, parts, Node.variables]

end

/-- The variables of a node are those that it declares itself and those of the nodes right below it. -/
theorem mem_declared_iff {n : Node} {v : Variable} :
    v ∈ n.declared ↔ v ∈ n.variables ∨ ∃ m ∈ n.inside, v ∈ m.declared := by
  have hnot {m : Node} : v ∉ m.declared ↔ All (· ≠ var v) m := by
    rw [mem_declared]
    exact ⟨fun h x hx he => h (he ▸ hx), fun h hv => h _ hv rfl⟩
  rw [← not_iff_not, hnot, all_iff_inside]
  · rw [not_or]
    refine and_congr ⟨fun h hv => h v hv rfl, fun h u hu he => h (var.inj he ▸ hu)⟩ ?_
    simp only [not_exists, not_and, hnot]
  · exact fun x hx => hx v

/-! ## Numbering -/

/-- The slot of a node that is a variable. -/
@[simp] def slot? : Node → Option Nat
  | var v => some v.slot
  | _ => none

/-- The slots of the variables among some nodes. -/
def slotsAmong (ns : List Node) : List Nat := ns.filterMap slot?

@[simp] theorem slotsAmong_cons (n : Node) (ns : List Node) :
    slotsAmong (n :: ns) = n.slot?.toList ++ slotsAmong ns := by
  rw [slotsAmong, filterMap_cons]
  cases n.slot? <;> rfl

@[simp] theorem slotsAmong_append (ns ms : List Node) : slotsAmong (ns ++ ms) = slotsAmong ns ++ slotsAmong ms :=
  filterMap_append

@[simp] theorem slotsAmong_walkType (enter : Node → Bool) (t : TypeExpr) : slotsAmong (walkType enter t) = [] := by
  simp [slotsAmong, walkType]

@[simp] theorem slotsAmong_flatMap {α : Type} {f : α → List Node} (h : ∀ x, slotsAmong (f x) = [])
    (xs : List α) : slotsAmong (xs.flatMap f) = [] := by
  induction xs with
  | nil => rfl
  | cons x xs ih => rw [flatMap_cons, slotsAmong_append, h, ih, append_nil]

theorem slotsAmong_nodes (n : Node) : slotsAmong n.nodes = n.declared.map slot := by
  rw [declared, map_filterMap]
  refine filterMap_congr fun m _ => ?_
  cases m <;> rfl

end Node

/-- Numbers are handed out in order, and what is made has those that `R` tells. -/
def Numbers {α : Type} (R : α → List Nat → Prop) (x : Numbering α) : Prop :=
  ∀ k, ∃ n, R (x.run k).1 (List.range' k n) ∧ (x.run k).2 = k + n

namespace Numbers

variable {α β : Type} {R : α → List Nat → Prop} {S : β → List Nat → Prop}

theorem pure {a : α} (h : R a []) : Numbers R (pure a) := fun _ => ⟨0, h, rfl⟩

theorem next : Numbers (fun slot l => l = [slot]) (getModify (· + 1)) := fun _ => ⟨1, rfl, rfl⟩

theorem bind {x : Numbering α} {f : α → Numbering β} (hx : Numbers R x)
    (hf : ∀ a l, R a l → Numbers (fun b m => S b (l ++ m)) (f a)) : Numbers S (x >>= f) := by
  intro k
  have hrun : (x >>= f).run k = (f (x.run k).1).run (x.run k).2 := rfl
  obtain ⟨n, hr, hn⟩ := hx k
  obtain ⟨m, hs, hm⟩ := hf _ _ hr (x.run k).2
  refine ⟨n + m, ?_, ?_⟩
  · rw [hrun, ← range'_append_1, ← hn]
    exact hs
  · rw [hrun, hm, hn, Nat.add_assoc]

theorem map {x : Numbering α} {f : α → β} (hx : Numbers R x) (hf : ∀ a l, R a l → S (f a) l) :
    Numbers S (f <$> x) := by
  rw [map_eq_pure_bind]
  exact hx.bind fun a l h => .pure (by simpa using hf a l h)

/-- What is made from two parts has the numbers of both. -/
theorem seq {x : Numbering (α → β)} {y : Numbering α}
    (hx : Numbers (fun f l => ∀ a m, R a m → S (f a) (l ++ m)) x) (hy : Numbers R y) : Numbers S (x <*> y) := by
  rw [seq_eq_bind_map]
  exact hx.bind fun f l hf => hy.map fun a m => hf a m

end Numbers

namespace Node

/-- Whether a node is a literal, or nothing. -/
def isLiteral : Node → Bool
  | missing | number _ _ | string _ | bool _ => true
  | _ => false

/-- Whether the constants that a node declares are literals. -/
def hasLiterals : Node → Bool
  | enumDecl d => d.variants.all fun v => v.value.isLiteral
  | _ => true

/-- Nodes `ms` became `ns` when they were numbered with `l`. -/
structure Renumbered (ms ns : List Node) (l : List Nat) : Prop where
  slots : slotsAmong ns = l
  literals : ns.all hasLiterals = ms.all hasLiterals

namespace Renumbered

variable {ms ns ms' ns' : List Node} {l l' : List Nat} {n n' : Node}

/-- Nodes without variables stay as they are. -/
theorem same (h : slotsAmong ms = []) : Renumbered ms ms [] := ⟨h, rfl⟩

theorem append (h : Renumbered ms ns l) (h' : Renumbered ms' ns' l') :
    Renumbered (ms ++ ms') (ns ++ ns') (l ++ l') := by
  refine ⟨?_, ?_⟩
  · rw [slotsAmong_append, h.slots, h'.slots]
  · rw [all_append, all_append, h.literals, h'.literals]

/-- A node that is no variable is in front of others. -/
theorem cons (h : Renumbered ms ns l) (hslot : n'.slot? = none) (hl : n'.hasLiterals = n.hasLiterals) :
    Renumbered (n :: ms) (n' :: ns) l := by
  refine ⟨?_, ?_⟩
  · rw [slotsAmong_cons, hslot, h.slots]
    rfl
  · rw [List.all_cons, List.all_cons, hl, h.literals]

/-- A variable is numbered before its value is. -/
theorem var {name : String} {ann : TypeExpr} {value value' : Node} {slot slot' : Nat}
    (h : Renumbered value.nodes value'.nodes l) : Renumbered (var ⟨name, ann, value, slot⟩).nodes
      (var ⟨name, ann, value', slot'⟩).nodes (slot' :: l) := by
  have hrest := (same (slotsAmong_walkType (fun _ => true) ann)).append h
  refine ⟨?_, ?_⟩
  · exact congrArg (slot' :: ·) hrest.slots
  · exact hrest.literals

end Renumbered

/-- What a node becomes when it is numbered. -/
def Becomes (n n' : Node) (l : List Nat) : Prop :=
  Renumbered n.nodes n'.nodes l ∧ n'.isLiteral = n.isLiteral

theorem slotsAmong_signature (sig : Signature) :
    slotsAmong (walkParams (fun _ => true) sig.params ++ walkType (fun _ => true) sig.ret) = [] := by
  simp [walkParams]

mutual

theorem numbers_assignSlots : ∀ n : Node, Numbers (Becomes n) n.assignSlots
  | program body | block body | sequence body | array body => by
    rw [assignSlots]
    exact (numbers_assignSlotsAll body).map fun ns l h => ⟨h.cons rfl rfl, rfl⟩
  | exprStmt x | returns x | unary _ x | update _ x _ | await x | member x _ _ | structLit _ x => by
    rw [assignSlots]
    exact (numbers_assignSlots x).map fun x' l h => ⟨h.1.cons rfl rfl, rfl⟩
  | whileLoop x y | binary _ x y | logical _ x y | assign _ x y | index x y => by
    rw [assignSlots]
    refine .seq ((numbers_assignSlots x).map ?_) (numbers_assignSlots y)
    intro x' l hx y' m hy
    exact ⟨(hx.1.append hy.1).cons rfl rfl, rfl⟩
  | ifElse x y z | ternary x y z => by
    rw [assignSlots]
    refine .seq (.seq ((numbers_assignSlots x).map ?_) (numbers_assignSlots y)) (numbers_assignSlots z)
    intro x' l hx y' m hy z' k hz
    exact ⟨((hx.1.append hy.1).append hz.1).cons rfl rfl, rfl⟩
  | forLoop init cond step body => by
    rw [assignSlots]
    refine .seq (.seq (.seq ((numbers_assignSlots init).map ?_) (numbers_assignSlots cond))
      (numbers_assignSlots step)) (numbers_assignSlots body)
    intro init' l hinit cond' m hcond step' k hstep body' j hbody
    exact ⟨(((hinit.1.append hcond.1).append hstep.1).append hbody.1).cons rfl rfl, rfl⟩
  | call callee args => by
    rw [assignSlots]
    refine .seq ((numbers_assignSlots callee).map ?_) (numbers_assignSlotsAll args)
    intro callee' l hcallee args' m hargs
    exact ⟨(hcallee.1.append hargs).cons rfl rfl, rfl⟩
  | lets vars => by
    rw [assignSlots]
    exact (numbers_assignSlotsVars vars).map fun vs l h => ⟨h.cons rfl rfl, rfl⟩
  | var ⟨name, ann, value, _⟩ => by
    rw [assignSlots]
    refine Numbers.next.bind ?_
    rintro slot _ rfl
    refine (numbers_assignSlots value).bind fun value' l h => .pure ?_
    rw [append_nil]
    exact ⟨h.1.var, rfl⟩
  | func _ sig body | lambda sig body => by
    rw [assignSlots]
    refine (numbers_assignSlots body).map fun body' l h => ⟨?_, rfl⟩
    exact ((Renumbered.same (slotsAmong_signature sig)).append h.1).cons rfl rfl
  | enumDecl ⟨name, tparams, variants⟩ => by
    rw [assignSlots]
    exact (numbers_assignSlotsVariants variants).map fun vs l h => ⟨h.1.cons rfl h.2, rfl⟩
  | object props => by
    rw [assignSlots]
    exact (numbers_assignSlotsProps props).map fun ps l h => ⟨h.cons rfl rfl, rfl⟩
  | missing | breaks | continues | number _ _ | string _ | bool _ | ident _ => by
    simp only [assignSlots]
    exact .pure ⟨.same rfl, rfl⟩
  | structDecl d => by
    simp only [assignSlots]
    exact .pure ⟨.same (by simp [nodes, walk, visit, walkFields]), rfl⟩
  | type t => by
    simp only [assignSlots]
    exact .pure ⟨.same (by simp [nodes, walk]), rfl⟩

theorem numbers_assignSlotsAll : ∀ ns : List Node,
    Numbers (fun ns' => Renumbered (walkAll (fun _ => true) ns) (walkAll (fun _ => true) ns'))
      (assignSlotsAll ns)
  | [] => by
    rw [assignSlotsAll]
    exact .pure (.same rfl)
  | n :: ns => by
    rw [assignSlotsAll]
    refine .seq ((numbers_assignSlots n).map ?_) (numbers_assignSlotsAll ns)
    intro n' l hn ns' m hns
    exact hn.1.append hns

theorem numbers_assignSlotsVars : ∀ vs : List Variable,
    Numbers (fun vs' => Renumbered (walkVars (fun _ => true) vs) (walkVars (fun _ => true) vs'))
      (assignSlotsVars vs)
  | [] => by
    rw [assignSlotsVars]
    exact .pure (.same rfl)
  | ⟨name, ann, value, _⟩ :: vs => by
    rw [assignSlotsVars]
    refine Numbers.next.bind ?_
    rintro slot _ rfl
    refine (numbers_assignSlots value).bind fun value' l h => ?_
    refine (numbers_assignSlotsVars vs).bind fun vs' m hvs => .pure ?_
    rw [append_nil]
    exact h.1.var.append hvs

theorem numbers_assignSlotsVariants : ∀ vs : List Variant,
    Numbers (fun vs' l => Renumbered (walkVariants (fun _ => true) vs) (walkVariants (fun _ => true) vs') l ∧
      vs'.all (fun v => v.value.isLiteral) = vs.all fun v => v.value.isLiteral) (assignSlotsVariants vs)
  | [] => by
    rw [assignSlotsVariants]
    exact .pure ⟨.same rfl, rfl⟩
  | ⟨name, kind, tuple, fields, value⟩ :: vs => by
    rw [assignSlotsVariants]
    refine (numbers_assignSlots value).bind fun value' l h => ?_
    refine (numbers_assignSlotsVariants vs).bind fun vs' m hvs => .pure ?_
    rw [append_nil]
    have htypes : slotsAmong (tuple.flatMap (walkType fun _ => true) ++
        walkFields (fun _ => true) fields) = [] := by simp [walkFields]
    refine ⟨((Renumbered.same htypes).append h.1).append hvs.1, ?_⟩
    rw [List.all_cons, List.all_cons, h.2, hvs.2]

theorem numbers_assignSlotsProps : ∀ ps : List (String × Node),
    Numbers (fun ps' => Renumbered (walkProps (fun _ => true) ps) (walkProps (fun _ => true) ps'))
      (assignSlotsProps ps)
  | [] => by
    rw [assignSlotsProps]
    exact .pure (.same rfl)
  | (key, value) :: ps => by
    rw [assignSlotsProps]
    refine (numbers_assignSlots value).bind fun value' l h => ?_
    refine (numbers_assignSlotsProps ps).bind fun ps' m hps => .pure ?_
    rw [append_nil]
    exact h.1.append hps

end

/-- The variables of a numbered tree have numbers of their own. -/
theorem nodup_slots_numbered (n : Node) : (n.numbered.declared.map slot).Nodup := by
  obtain ⟨count, ⟨hnodes, -⟩, -⟩ := numbers_assignSlots n 0
  rw [← slotsAmong_nodes]
  show (slotsAmong (n.assignSlots.run 0).1.nodes).Nodup
  rw [hnodes.slots]
  exact nodup_range'

/-- To number a tree makes no difference to its constants. -/
theorem literals_numbered (n : Node) : n.numbered.nodes.all hasLiterals = n.nodes.all hasLiterals := by
  obtain ⟨count, ⟨hnodes, -⟩, -⟩ := numbers_assignSlots n 0
  exact hnodes.literals

end Node

end ScriptTyping
