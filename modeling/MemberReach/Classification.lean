import MemberReach.Model
import MemberReach.SymbolSet

/-!
# Reads and calls of a method body

A member access that is not called is a read; the callee of a call, a bare name or a member
access, is called. A body is classified by the properties it reads and the methods it calls.
Only properties of the tracked type count, and only members of declared types.
-/

namespace MemberReach

/-- The properties that a body reads and the methods that it calls. -/
structure Classification where
  reads : SymbolSet PropertySymbol
  calls : SymbolSet MethodSymbol

namespace Classification

/-- The property that a node reads. -/
def read? (resolver : Resolver) (unit : Nat) (c : Cursor) : Option PropertySymbol :=
  if c.kind == .memberAccessExpression && !c.isCallee then
    match resolver.symbol? unit c with
    | some (.property p) =>
        if resolver.isTarget p.typeName && resolver.isDeclared p.id.owner then some p else none
    | _ => none
  else none

/-- Whether a node can be resolved as a callee. -/
def isCallable : Kind → Bool
  | .identifier | .genericName | .memberAccessExpression => true
  | _ => false

/-- The method that a node calls. -/
def call? (resolver : Resolver) (unit : Nat) (c : Cursor) : Option MethodSymbol :=
  if c.kind == .invocationExpression then
    match (c.child? .function).filter fun callee ↦ isCallable callee.kind with
    | none => none
    | some callee =>
        match resolver.symbol? unit callee with
        | some (.method m) => if resolver.isDeclared m.id.owner then some m else none
        | _ => none
  else none

variable {resolver : Resolver} {unit : Nat} {c : Cursor}

/-- A node reads a property if it is a member access that is not called and denotes the property,
and the property has the tracked type and a declared owner. -/
theorem read_eq_some_iff {p : PropertySymbol} :
    read? resolver unit c = some p ↔
      c.kind = .memberAccessExpression ∧ c.isCallee = false ∧
        resolver.symbol? unit c = some (.property p) ∧
        resolver.isTarget p.typeName ∧ resolver.isDeclared p.id.owner := by
  constructor
  · intro h
    unfold read? at h
    split at h
    next hread =>
      split at h
      next q hsymbol =>
        split at h
        next hkept =>
          cases h
          rw [Bool.and_eq_true, Bool.not_eq_true'] at hread
          rw [Bool.and_eq_true] at hkept
          exact ⟨eq_of_beq hread.1, hread.2, hsymbol, hkept⟩
        next => cases h
      next => cases h
    next => cases h
  · rintro ⟨hkind, hcallee, hsymbol, htarget, hdeclared⟩
    simp [read?, hkind, hcallee, hsymbol, htarget, hdeclared]

/-- A node calls a method if it is a call whose function can be resolved and denotes the method,
and the method has a declared owner. -/
theorem call_eq_some_iff {m : MethodSymbol} :
    call? resolver unit c = some m ↔
      c.kind = .invocationExpression ∧ ∃ callee, c.child? .function = some callee ∧
        isCallable callee.kind ∧ resolver.symbol? unit callee = some (.method m) ∧
        resolver.isDeclared m.id.owner := by
  constructor
  · intro h
    unfold call? at h
    split at h
    next hkind =>
      split at h
      next => cases h
      next callee hcallee =>
        obtain ⟨hfunction, hcallable⟩ := Option.filter_eq_some_iff.1 hcallee
        split at h
        next q hsymbol =>
          split at h
          next hdeclared =>
            cases h
            exact ⟨eq_of_beq hkind, callee, hfunction, hcallable, hsymbol, hdeclared⟩
          next => cases h
        next => cases h
    next => cases h
  · rintro ⟨hkind, callee, hfunction, hcallable, hsymbol, hdeclared⟩
    simp [call?, hkind, hfunction, Option.filter_some, hcallable, hsymbol, hdeclared]

/-- The reads and calls of a method; a method without a body has none. -/
def classify (resolver : Resolver) (method : MethodBody) : Classification :=
  let nodes := (method.body.map Cursor.descendants).getD []
  { reads := .ofList (nodes.filterMap (read? resolver method.unit))
    calls := .ofList (nodes.filterMap (call? resolver method.unit)) }

end Classification

end MemberReach
