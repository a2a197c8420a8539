import ScriptTyping.Syntax.Walk

/-!
# Everywhere in a tree

A property holds everywhere in a tree (`Node.All`) if it holds of all nodes that a walk finds. It holds
there if it holds of the first node, and everywhere in the nodes and types right below it
(`Node.all_iff_parts`), so an induction over trees need not look at the walk.
-/

namespace ScriptTyping

open List

namespace TypeExpr

variable {P : TypeExpr → Prop}

/-- A property of all parts of a type. -/
def All (P : TypeExpr → Prop) (t : TypeExpr) : Prop := ∀ u ∈ t.walk fun _ => true, P u

/-- A property of a type and of all that is in it. -/
def Parts (P : TypeExpr → Prop) : TypeExpr → Prop
  | missing => True
  | t@(named _) => P t
  | t@(array u) | t@(promise u) | t@(generic _ u) => P t ∧ All P u
  | t@(map u v) => P t ∧ All P u ∧ All P v
  | t@(func ps u) => P t ∧ (∀ p ∈ ps, All P p.ann) ∧ All P u
  | t@(structRef _ ts) | t@(enumRef _ ts) => P t ∧ ∀ u ∈ ts, All P u

theorem all_walkAll {ts : List TypeExpr} : (∀ u ∈ walkAll (fun _ => true) ts, P u) ↔ ∀ t ∈ ts, All P t := by
  induction ts with
  | nil => simp [walkAll]
  | cons t ts ih => simp only [walkAll, forall_mem_append, forall_mem_cons, ih, All]

theorem all_walkParams {ps : List Param} :
    (∀ u ∈ walkParams (fun _ => true) ps, P u) ↔ ∀ p ∈ ps, All P p.ann := by
  induction ps with
  | nil => simp [walkParams]
  | cons p ps ih => simp only [walkParams, forall_mem_append, forall_mem_cons, ih, All]

theorem All.parts {t : TypeExpr} (h : All P t) : Parts P t := by
  cases t with
  | missing => exact trivial
  | _ =>
    simpa only [Parts, All, walk, if_true, forall_mem_cons, forall_mem_append, all_walkAll,
      all_walkParams, not_mem_nil, false_imp_iff, implies_true, and_true] using h

end TypeExpr

namespace Node

variable {P : Node → Prop}

/-- A property of all parts of a tree. -/
def All (P : Node → Prop) (x : Node) : Prop := ∀ m ∈ x.walk fun _ => true, P m

/-- A property of all parts of a type in a tree. -/
abbrev AllTypes (P : Node → Prop) (t : TypeExpr) : Prop := t.All fun u => P (.type u)

/-- A property of a node and of all that is in it. -/
def Parts (P : Node → Prop) : Node → Prop
  | missing => True
  | n@breaks | n@continues | n@(number ..) | n@(string _) | n@(bool _) | n@(ident _) => P n
  | n@(program xs) | n@(block xs) | n@(sequence xs) | n@(array xs) => P n ∧ ∀ x ∈ xs, All P x
  | n@(exprStmt x) | n@(returns x) | n@(unary _ x) | n@(update _ x _) | n@(await x) | n@(member x _ _)
  | n@(structLit _ x) => P n ∧ All P x
  | n@(whileLoop x y) | n@(binary _ x y) | n@(logical _ x y) | n@(assign _ x y) | n@(index x y) =>
    P n ∧ All P x ∧ All P y
  | n@(ifElse x y z) | n@(ternary x y z) => P n ∧ All P x ∧ All P y ∧ All P z
  | n@(forLoop x y z w) => P n ∧ All P x ∧ All P y ∧ All P z ∧ All P w
  | n@(call x xs) => P n ∧ All P x ∧ ∀ y ∈ xs, All P y
  | n@(object ps) => P n ∧ ∀ q ∈ ps, All P q.2
  | n@(lets vars) => P n ∧ ∀ v ∈ vars, P (.var v) ∧ AllTypes P v.ann ∧ All P v.value
  | n@(var v) => P n ∧ AllTypes P v.ann ∧ All P v.value
  | n@(func _ sig x) | n@(lambda sig x) =>
    P n ∧ (∀ p ∈ sig.params, AllTypes P p.ann) ∧ AllTypes P sig.ret ∧ All P x
  | n@(structDecl d) => P n ∧ ∀ f ∈ d.fields, AllTypes P f.ann
  | n@(enumDecl d) => P n ∧ ∀ v ∈ d.variants,
    (∀ t ∈ v.tuple, AllTypes P t) ∧ (∀ f ∈ v.fields, AllTypes P f.ann) ∧ All P v.value
  | type t => AllTypes P t

theorem all_walkType {t : TypeExpr} : (∀ m ∈ walkType (fun _ => true) t, P m) ↔ AllTypes P t := by
  simp [walkType, AllTypes, TypeExpr.All]

theorem all_walkParams {ps : List Param} :
    (∀ m ∈ walkParams (fun _ => true) ps, P m) ↔ ∀ p ∈ ps, AllTypes P p.ann := by
  simp only [walkParams, forall_mem_flatMap, all_walkType]

theorem all_walkFields {fs : List Field} :
    (∀ m ∈ walkFields (fun _ => true) fs, P m) ↔ ∀ f ∈ fs, AllTypes P f.ann := by
  simp only [walkFields, forall_mem_flatMap, all_walkType]

theorem all_walkAll {xs : List Node} : (∀ m ∈ walkAll (fun _ => true) xs, P m) ↔ ∀ x ∈ xs, All P x := by
  induction xs with
  | nil => simp [walkAll]
  | cons x xs ih => simp only [walkAll, forall_mem_append, forall_mem_cons, ih, All]

theorem all_walkVars {vars : List Variable} : (∀ m ∈ walkVars (fun _ => true) vars, P m) ↔
    ∀ v ∈ vars, P (.var v) ∧ AllTypes P v.ann ∧ All P v.value := by
  induction vars with
  | nil => simp [walkVars]
  | cons v vars ih =>
    simp only [walkVars, visit, if_true, forall_mem_append, forall_mem_cons, all_walkType, ih,
      All, and_assoc]

theorem all_walkVariants {vs : List Variant} : (∀ m ∈ walkVariants (fun _ => true) vs, P m) ↔
    ∀ v ∈ vs, (∀ t ∈ v.tuple, AllTypes P t) ∧ (∀ f ∈ v.fields, AllTypes P f.ann) ∧ All P v.value := by
  induction vs with
  | nil => simp [walkVariants]
  | cons v vs ih =>
    obtain ⟨name, kind, tuple, fields, value⟩ := v
    simp only [walkVariants, forall_mem_append, forall_mem_flatMap, all_walkType,
      all_walkFields, ih, All, forall_mem_cons, and_assoc]

theorem all_walkProps {ps : List (String × Node)} :
    (∀ m ∈ walkProps (fun _ => true) ps, P m) ↔ ∀ q ∈ ps, All P q.2 := by
  induction ps with
  | nil => simp [walkProps]
  | cons q ps ih => simp only [walkProps, forall_mem_append, forall_mem_cons, ih, All]

theorem all_iff_parts {x : Node} : All P x ↔ Parts P x := by
  cases x <;>
    simp only [Parts, All, walk, visit, if_true, forall_mem_cons, forall_mem_append, all_walkAll,
      all_walkType, all_walkParams, all_walkFields, all_walkVars, all_walkVariants, all_walkProps,
      not_mem_nil, false_imp_iff, implies_true, and_true, and_assoc]

theorem All.parts {x : Node} (h : All P x) : Parts P x := all_iff_parts.1 h

end Node

end ScriptTyping
