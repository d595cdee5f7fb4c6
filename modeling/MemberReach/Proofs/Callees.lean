import MemberReach.Proofs.SimpleNames

/-!
# Callees

The callee of a call is the node that plays the part of the function in it (`is_callee_iff`). The
method that it denotes is a member of the receiver's type or of an enclosing type if there is one,
and else an extension method. `Env.chosen?` tells the two apart, and `callee_eq_chosen` says that it
gives the method that is called.
-/

namespace MemberReach

namespace Cursor

variable {c call : Cursor}

/-- The function of a call is its callee. -/
theorem call_of_function (hkind : call.kind = .invocationExpression)
    (hfunction : call.child? .function = some c) : c.call? = some call := by
  have hparent := parent_of_mem_children (mem_children_of_child hfunction)
  rw [call?, hparent, Option.filter_some, hkind, hfunction, Option.any_some]
  simp [sameNode]

/-- A child is the callee of its parent exactly if the parent is a call and the child is the
function of it. -/
theorem is_callee_iff (hchild : c ∈ call.children) :
    c.isCallee ↔ call.kind = .invocationExpression ∧ call.child? .function = some c := by
  refine ⟨fun hcallee ↦ ?_, fun ⟨hkind, hfunction⟩ ↦ ?_⟩
  · rw [isCallee, call?, parent_of_mem_children hchild, Option.isSome_filter] at hcallee
    rw [Option.any_some, Bool.and_eq_true, Option.any_eq_true] at hcallee
    obtain ⟨hkind, f, hfunction, hsame⟩ := hcallee
    obtain rfl := eq_of_same_node (mem_children_of_child hfunction) hchild hsame
    exact ⟨eq_of_beq hkind, hfunction⟩
  · rw [isCallee, call_of_function hkind hfunction]
    rfl

end Cursor

namespace Typing

/-- How the method of a call is found: as a member of a type, or as an extension method. -/
inductive Route where
  | member
  | extension
  deriving DecidableEq, Repr

/-- The position of the parameter that the argument at a position is passed for. The receiver of an
extension method is passed for the first one. -/
def Route.parameter : Route → Nat → Nat
  | member, position => position
  | extension, position => position + 1

namespace Env

/-- The method that a call invokes and how it is found, given how receivers are typed. -/
def chosen? (env : Env) (typeOf? : Cursor → Option TypeKey) (call : Cursor) :
    Option (Route × MethodSymbol) := do
  let function ← call.child? .function
  match function.kind with
  | .memberAccessExpression =>
      let (name, receiver) ← access? function
      let own := (typeOf? receiver).bind fun key ↦ env.pickOverload? key name call.argumentCount
      let added := env.pickExtension? (typeOf? receiver) name call.argumentCount
      (own.map fun m ↦ (.member, m)).or (added.map fun m ↦ (.extension, m))
  | _ =>
      let name ← function.simpleName?
      (env.scope.enclosingTypes.findSome? fun key ↦
        env.pickOverload? key name call.argumentCount).map fun m ↦ (.member, m)

variable {env : Env} {typeOf? : Cursor → Option TypeKey} {call : Cursor}

/-- The callee of a call that is a member access denotes a method of the receiver's type, or else an
extension method. -/
theorem symbol_of_called_access {f : Cursor} (hcall : f.call? = some call)
    (hkind : f.kind = .memberAccessExpression) :
    env.symbol? typeOf? f = (access? f).bind fun (name, receiver) ↦
      (((typeOf? receiver).bind fun key ↦ env.pickOverload? key name call.argumentCount).or
        (env.pickExtension? (typeOf? receiver) name call.argumentCount)).map .method := by
  simp only [symbol?, hkind, memberAccess?, accessSymbol?, hcall, Option.bind_eq_bind]

/-- A node without a simple name that is no member access denotes nothing. -/
theorem symbol_of_unnamed {f : Cursor} (hkind : f.kind ≠ .memberAccessExpression)
    (hname : f.simpleName? = none) : env.symbol? typeOf? f = none := by
  unfold symbol?
  split
  next h => exact absurd h hkind
  next => rw [simpleName?, hname]; rfl
  next => rw [simpleName?, hname]; rfl
  next => rfl

/-- The method that is chosen is the one that is called. -/
theorem callee_eq_chosen (hkind : call.kind = .invocationExpression) :
    env.callee? typeOf? call = (env.chosen? typeOf? call).map Prod.snd := by
  rw [callee?, chosen?]
  cases hfunction : call.child? .function with
  | none => rfl
  | some f =>
      have hcall := Cursor.call_of_function hkind hfunction
      simp only [Option.bind_eq_bind, Option.bind_some]
      split
      next hmember =>
        rw [symbol_of_called_access hcall hmember]
        cases access? f with
        | none => rfl
        | some pair =>
            simp only [Option.bind_some]
            cases (typeOf? pair.2).bind fun key ↦
              env.pickOverload? key pair.1 call.argumentCount with
            | some m => rfl
            | none => cases env.pickExtension? (typeOf? pair.2) pair.1 call.argumentCount <;> rfl
      next hmember =>
        cases hname : f.simpleName? with
        | none => rw [symbol_of_unnamed hmember hname]; rfl
        | some name =>
            rw [symbol_eq_simple_name hname, simple_name_of_call hname hcall]
            rw [Option.bind_some]
            cases env.scope.enclosingTypes.findSome? fun key ↦
              env.pickOverload? key name call.argumentCount <;> rfl

end Env

end Typing

end MemberReach
