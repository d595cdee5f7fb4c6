import MemberReach.Grammar.Rules
import MemberReach.Proofs.TreePositions
import MemberReach.Registry.Collect
import MemberReach.Typing

/-!
# The limit on typing

Raising the limit gives types to receivers that had none. At two places a receiver without a type
is not the end of it: a member access is then taken for the name of a type, and a call on it for
the call of an extension method of a type that is not declared. What stands in for the missing
type there is given up once the receiver has a type, and the answer may change from one symbol to
another (`deep_receiver_taken_for_undeclared`). An expression is steady between two limits if
nothing stands in for a receiver that has a type only within the higher one. The answers about
steady nodes are kept: by induction on the depth that is left, each function of the typing keeps
what the functions that it calls keep (`types_kept`, `resolve_kept_of_steady`).
-/

namespace MemberReach.Typing

/-- What one answer says, the other says too. -/
def Kept {α : Type} (answer other : Option α) : Prop :=
  ∀ x, answer = some x → other = some x

namespace Kept

variable {α β : Type} {answer other : Option α}

theorem refl (answer : Option α) : Kept answer answer :=
  fun _ h ↦ h

theorem of_none (other : Option α) : Kept none other :=
  nofun

theorem bind (h : Kept answer other) (f : α → Option β) :
    Kept (answer.bind f) (other.bind f) := by
  intro y hy
  obtain ⟨x, hx, hf⟩ := Option.bind_eq_some_iff.1 hy
  exact Option.bind_eq_some_iff.2 ⟨x, h x hx, hf⟩

theorem map (h : Kept answer other) (f : α → β) : Kept (answer.map f) (other.map f) := by
  intro y hy
  obtain ⟨x, hx, hf⟩ := Option.map_eq_some_iff.1 hy
  exact Option.map_eq_some_iff.2 ⟨x, h x hx, hf⟩

/-- A kept answer stays the same, or there was none. -/
theorem eq_or_none (h : Kept answer other) : answer = other ∨ answer = none := by
  cases answer with
  | none => exact Or.inr rfl
  | some x => exact Or.inl (h x rfl).symm

end Kept

/-! ### Steady expressions -/

section Steady

variable (env : Env) (limit more : Nat)

/-- Whether an expression at a depth has a type within the higher limit only. -/
def gainsType (depth : Nat) (c : Cursor) : Bool :=
  (typeOf? env limit depth c).isNone && (typeOf? env more depth c).isSome

/-- Whether no type name stands in for the receiver of a member access, which is typed at the
given depth, if it gains a type. -/
def isSteadyName (depth : Nat) (c : Cursor) : Bool :=
  (Env.access? c).all fun (_, receiver) ↦
    !gainsType env limit more depth receiver || (env.resolveType? c.text).isNone

/-- Whether no extension method stands in for the receiver of a called member access, which is
typed at the given depth, if it gains a type. -/
def isSteadyCallee (depth : Nat) (c : Cursor) : Bool :=
  (Env.access? c).all fun (name, receiver) ↦ c.call?.all fun call ↦
    !gainsType env limit more depth receiver ||
      (env.pickExtension? none name call.argumentCount).isNone

/-- Whether a node that is resolved is steady, given which receivers are: a member access whose
receiver is typed at the given depth, or any other node. -/
def isSteadySymbol (isSteady : Cursor → Bool) (depth : Nat) (c : Cursor) : Bool :=
  match c.kind with
  | .memberAccessExpression =>
      isSteadyCallee env limit more depth c &&
        (Env.access? c).all fun (_, receiver) ↦ isSteady receiver
  | _ => true

/-- The call that an output argument is passed to. -/
def callAround? (declaration : Cursor) : Option Cursor := do
  let argument ← declaration.parent?.filter fun parent ↦ parent.kind == .argument
  let list ← argument.parent?
  list.parent?.filter fun parent ↦ parent.kind == .invocationExpression

/-- Whether an expression is steady at a depth: on the way to its type, nothing stands in for a
receiver that gains a type. -/
def isSteady (depth : Nat) (c : Cursor) : Bool :=
  if _ : limit < depth then true else
  match c.kind with
  | .parenthesizedExpression => (c.namedChild? 0).all fun inner ↦ isSteady (depth + 1) inner
  | .identifier =>
      match Binding.find? c c.text with
      | some (.initialized value) => isSteady (depth + 1) value
      | some (.element collection) => isSteady (depth + 1) collection
      | some (.outArgument declaration) =>
          (callAround? declaration).all fun call ↦ (call.child? .function).all fun function ↦
            isSteadySymbol env limit more (fun receiver ↦ isSteady (depth + 3) receiver)
              (depth + 3) function
      | _ => true
  | .memberAccessExpression =>
      isSteadyName env limit more (depth + 1) c &&
        (Env.access? c).all fun (_, receiver) ↦ isSteady (depth + 1) receiver
  | .invocationExpression =>
      (c.child? .function).all fun function ↦
        isSteadySymbol env limit more (fun receiver ↦ isSteady (depth + 2) receiver)
          (depth + 2) function
  | _ => true
termination_by limit + 1 - depth

end Steady

/-! ### Kept answers -/

variable {env : Env} {limit more : Nat}

/-- What a steady expression has as type or descriptor at a depth is kept. -/
def KeptAt (env : Env) (limit more depth : Nat) : Prop :=
  ∀ c, isSteady env limit more depth c = true →
    Kept (typeOf? env limit depth c) (typeOf? env more depth c) ∧
      Kept (descriptorOf? env limit depth c) (descriptorOf? env more depth c)

/-- A receiver whose type is not the same within both limits gains it, if its type is kept. -/
theorem gains_type_of_ne {depth : Nat} {c : Cursor}
    (h : Kept (typeOf? env limit depth c) (typeOf? env more depth c))
    (hne : typeOf? env limit depth c ≠ typeOf? env more depth c) :
    typeOf? env limit depth c = none ∧ gainsType env limit more depth c = true := by
  have hnone : typeOf? env limit depth c = none := h.eq_or_none.resolve_left hne
  refine ⟨hnone, ?_⟩
  rw [gainsType, hnone, Option.isNone_none, Bool.true_and, Option.isSome_iff_ne_none]
  exact fun hmore ↦ hne (hnone.trans hmore.symm)

section Symbols

variable {depth : Nat} (hkept : KeptAt env limit more depth) {c : Cursor}

include hkept

/-- The symbol that a steady member access denotes is kept. -/
theorem member_access_kept (hcallee : isSteadyCallee env limit more depth c = true)
    (hreceiver : (Env.access? c).all (fun (_, receiver) ↦
      isSteady env limit more depth receiver) = true) :
    Kept (env.memberAccess? (typeOf? env limit depth) c)
      (env.memberAccess? (typeOf? env more depth) c) := by
  unfold Env.memberAccess?
  cases haccess : Env.access? c with
  | none => exact Kept.of_none _
  | some pair =>
      obtain ⟨name, receiver⟩ := pair
      simp only [isSteadyCallee, haccess, Option.all_some] at hcallee hreceiver
      by_cases heq : typeOf? env limit depth receiver = typeOf? env more depth receiver
      · simp only [Option.bind_eq_bind, Option.bind_some, heq]
        exact Kept.refl _
      · -- the receiver gains its type, and so far there is no answer without it
        obtain ⟨hnone, hgains⟩ := gains_type_of_ne (hkept receiver hreceiver).1 heq
        rw [hgains] at hcallee
        simp only [Option.bind_eq_bind, Option.bind_some, hnone, Env.accessSymbol?]
        cases hcall : c.call? with
        | none => exact Kept.of_none _
        | some call =>
            simp only [hcall, Option.all_some, Bool.not_true, Bool.false_or,
              Option.isNone_iff_eq_none] at hcallee
            simp only [Option.bind_none, Option.none_or, hcallee]
            exact Kept.of_none _

/-- The symbol that a steady node denotes is kept. -/
theorem symbol_kept
    (hsteady : isSteadySymbol env limit more (isSteady env limit more depth) depth c = true) :
    Kept (env.symbol? (typeOf? env limit depth) c) (env.symbol? (typeOf? env more depth) c) := by
  unfold Env.symbol?
  unfold isSteadySymbol at hsteady
  split
  next hkind =>
    simp only [hkind, Bool.and_eq_true] at hsteady
    exact member_access_kept hkept hsteady.1 hsteady.2
  next => exact Kept.refl _
  next => exact Kept.refl _
  next => exact Kept.refl _

/-- The method that a call invokes is kept if the callee is steady. -/
theorem callee_kept {call : Cursor}
    (hsteady : (call.child? .function).all (isSteadySymbol env limit more
      (isSteady env limit more depth) depth) = true) :
    Kept (env.callee? (typeOf? env limit depth) call)
      (env.callee? (typeOf? env more depth) call) := by
  unfold Env.callee?
  cases hfunction : call.child? .function with
  | none => exact Kept.of_none _
  | some function =>
      rw [hfunction, Option.all_some] at hsteady
      exact (symbol_kept hkept hsteady).bind _

/-- The declared type of an output argument is kept if the callee that it is passed to is
steady. -/
theorem out_argument_type_kept {declaration : Cursor}
    (hsteady : (callAround? declaration).all (fun call ↦ (call.child? .function).all
      (isSteadySymbol env limit more (isSteady env limit more depth) depth)) = true) :
    Kept (env.outArgumentType? (typeOf? env limit depth) declaration)
      (env.outArgumentType? (typeOf? env more depth) declaration) := by
  intro key hkey
  simp only [Env.outArgumentType?, Option.bind_eq_bind, Option.bind_eq_some_iff] at hkey ⊢
  obtain ⟨argument, hargument, list, hlist, call, hcall, index, hindex, method, hmethod, hrest⟩ :=
    hkey
  have haround : callAround? declaration = some call := by
    simp only [callAround?, Option.bind_eq_bind, hargument, hlist, hcall, Option.bind_some]
  rw [haround, Option.all_some] at hsteady
  exact ⟨argument, hargument, list, hlist, call, hcall, index, hindex, method,
    callee_kept hkept hsteady method hmethod, hrest⟩

end Symbols

/-- The type that a member access has through its receiver, or else as the name of a type, is kept
if no type name stands in for the receiver. -/
theorem named_type_kept {depth : Nat} (hkept : KeptAt env limit more depth) {c : Cursor}
    (hname : isSteadyName env limit more depth c = true)
    (hreceiver : (Env.access? c).all (fun (_, receiver) ↦
      isSteady env limit more depth receiver) = true) :
    Kept
      (((Env.access? c).bind fun (name, receiver) ↦
        (typeOf? env limit depth receiver).bind fun key ↦ env.memberTypeOn? key name).or
          (env.resolveType? c.text))
      (((Env.access? c).bind fun (name, receiver) ↦
        (typeOf? env more depth receiver).bind fun key ↦ env.memberTypeOn? key name).or
          (env.resolveType? c.text)) := by
  cases haccess : Env.access? c with
  | none => exact Kept.refl _
  | some pair =>
      obtain ⟨name, receiver⟩ := pair
      simp only [isSteadyName, haccess, Option.all_some] at hname hreceiver
      by_cases heq : typeOf? env limit depth receiver = typeOf? env more depth receiver
      · simp only [Option.bind_some, heq]
        exact Kept.refl _
      · obtain ⟨hnone, hgains⟩ := gains_type_of_ne (hkept receiver hreceiver).1 heq
        rw [hgains, Bool.not_true, Bool.false_or, Option.isNone_iff_eq_none] at hname
        simp only [Option.bind_some, hnone, Option.bind_none, Option.none_or, hname]
        exact Kept.of_none _

section Step

variable {depth : Nat} (hdepth : ¬ limit < depth) (hmore : ¬ more < depth)
  (ih : ∀ further, depth < further → KeptAt env limit more further) {c : Cursor}
  (hsteady : isSteady env limit more depth c = true)

include hdepth hmore ih hsteady

/-- The type of a steady expression is kept if types and descriptors are at greater depths. -/
theorem type_of_kept : Kept (typeOf? env limit depth c) (typeOf? env more depth c) := by
  rw [isSteady, dif_neg hdepth] at hsteady
  rw [typeOf?, dif_neg hdepth, typeOf?, dif_neg hmore]
  split
  case h_1 hkind =>
    -- an expression in parentheses
    simp only [hkind] at hsteady
    cases hinner : c.namedChild? 0 with
    | none => exact Kept.of_none _
    | some inner =>
        rw [hinner, Option.all_some] at hsteady
        exact (ih (depth + 1) (by omega) inner hsteady).1
  case h_4 hkind =>
    -- a name: only what it is bound to depends on the limit
    simp only [hkind] at hsteady
    cases hfind : Binding.find? c c.text with
    | none => exact Kept.refl _
    | some binding =>
        simp only [hfind] at hsteady
        cases binding with
        | declared descriptor => exact Kept.refl _
        | initialized value => exact (ih (depth + 1) (by omega) value hsteady).1
        | element collection =>
            exact ((ih (depth + 1) (by omega) collection hsteady).2.bind _).bind _
        | outArgument declaration =>
            exact out_argument_type_kept (ih (depth + 3) (by omega)) hsteady
  case h_8 hkind =>
    -- a member access
    simp only [hkind, Bool.and_eq_true] at hsteady
    exact named_type_kept (ih (depth + 1) (by omega)) hsteady.1 hsteady.2
  case h_9 hkind =>
    -- a call
    simp only [hkind] at hsteady
    exact (callee_kept (ih (depth + 2) (by omega)) hsteady).bind _
  all_goals exact Kept.refl _

/-- The descriptor of a steady expression is kept if types and descriptors are at greater
depths. -/
theorem descriptor_of_kept :
    Kept (descriptorOf? env limit depth c) (descriptorOf? env more depth c) := by
  rw [isSteady, dif_neg hdepth] at hsteady
  rw [descriptorOf?, dif_neg hdepth, descriptorOf?, dif_neg hmore]
  split
  case h_1 hkind =>
    simp only [hkind] at hsteady
    cases hinner : c.namedChild? 0 with
    | none => exact Kept.of_none _
    | some inner =>
        rw [hinner, Option.all_some] at hsteady
        exact (ih (depth + 1) (by omega) inner hsteady).2
  case h_5 hkind =>
    -- a name
    simp only [hkind] at hsteady
    cases hfind : Binding.find? c c.text with
    | none => exact Kept.refl _
    | some binding =>
        simp only [hfind] at hsteady
        cases binding with
        | declared descriptor => exact Kept.refl _
        | initialized value => exact (ih (depth + 1) (by omega) value hsteady).2
        | element collection => exact Kept.refl _
        | outArgument declaration => exact Kept.refl _
  case h_6 hkind =>
    -- a member access, which is described by its receiver alone
    simp only [hkind, Bool.and_eq_true] at hsteady
    cases haccess : Env.access? c with
    | none => exact Kept.of_none _
    | some pair =>
        obtain ⟨name, receiver⟩ := pair
        rw [haccess, Option.all_some] at hsteady
        exact (ih (depth + 1) (by omega) receiver hsteady.2).1.bind _
  case h_7 hkind =>
    -- a call
    simp only [hkind] at hsteady
    exact (callee_kept (ih (depth + 2) (by omega)) hsteady).map _
  all_goals exact Kept.refl _

end Step

/-- Types and descriptors of steady expressions are kept at every depth. -/
theorem types_kept (hle : limit ≤ more) (depth : Nat) : KeptAt env limit more depth := by
  -- on the depth that is left, as the two functions call each other at greater depths only
  induction hleft : limit + 1 - depth using Nat.strongRecOn generalizing depth with
  | _ left ih =>
      intro c hsteady
      by_cases hdepth : limit < depth
      · rw [typeOf?, dif_pos hdepth, descriptorOf?, dif_pos hdepth]
        exact ⟨Kept.of_none _, Kept.of_none _⟩
      · have hmore : ¬ more < depth := by omega
        have hfurther : ∀ further, depth < further → KeptAt env limit more further :=
          fun further hlt ↦ ih (limit + 1 - further) (by omega) further rfl
        exact ⟨type_of_kept hdepth hmore hfurther hsteady,
          descriptor_of_kept hdepth hmore hfurther hsteady⟩

/-! ### Nodes that are resolved -/

/-- Whether the node of a unit is steady between two limits. -/
def isSteadyNode (r : Registry) (unit limit more : Nat) (c : Cursor) : Bool :=
  let env : Env := ⟨r, ⟨unit, Scope.of c⟩⟩
  isSteadySymbol env limit more (isSteady env limit more 1) 1 c

/-- Raising the limit keeps the symbol that a steady node denotes. -/
theorem resolve_kept_of_steady (r : Registry) (unit : Nat) {limit more : Nat}
    (hle : limit ≤ more) {c : Cursor} (hsteady : isSteadyNode r unit limit more c = true)
    {s : Symbol} (h : resolve? r limit unit c = some s) : resolve? r more unit c = some s :=
  symbol_kept (types_kept hle 1) hsteady s h

end MemberReach.Typing

namespace MemberReach.Chain

/-- A method that is called at the end of a chain of fields, and an extension method with its name
for a type that is not declared. -/
def source (links : Nat) : String :=
  "class A \x7b A n; void M() \x7b \x7d void T(A a) \x7b a" ++
    String.join (List.replicate links ".n") ++ ".M(); \x7d \x7d " ++
    "static class E \x7b static void M(this string s) \x7b \x7d \x7d"

/-- A file with two fields in the chain. -/
def unit : SourceUnit :=
  .create ⟨"A.cs"⟩ none (source 2) (Node.ofSource (source 2))

/-- The registry of the file. -/
def registry : Registry :=
  .build [unit]

open Cursor Typing in
/-- The chain is typed within three levels. Within two it is not, and the callee denotes another
method. -/
theorem callee_answers :
    ∃ c ∈ reach [] unit.tree, c.isCallee = true ∧
      isSteadyNode registry 0 3 defaultLimit c = true ∧
      (resolve? registry 3 0 c).isSome = true ∧ (resolve? registry 2 0 c).isSome = true ∧
      resolve? registry 2 0 c ≠ resolve? registry 3 0 c := by
  decide +kernel

end MemberReach.Chain

namespace MemberReach.Typing

open Cursor

/-- The method at the end of the chain is kept from three levels up to the limit. -/
theorem resolve_kept_of_steady_chain :
    ∃ c, IsIn Chain.unit.tree c ∧ isSteadyNode Chain.registry 0 3 defaultLimit c = true ∧
      ∃ s, resolve? Chain.registry 3 0 c = some s ∧
        resolve? Chain.registry defaultLimit 0 c = some s := by
  obtain ⟨c, hc, _, hsteady, hsome, _⟩ := Chain.callee_answers
  obtain ⟨s, hs⟩ := Option.isSome_iff_exists.1 hsome
  have hkept := resolve_kept_of_steady Chain.registry 0 (by decide) hsteady hs
  exact ⟨c, is_in_iff_mem_reach.2 hc, hsteady, s, hs, hkept⟩

/-- A limit that is one level short leaves the receiver of the chain without a type, and the
extension method is called; within the next limit the method of the receiver is. -/
theorem deep_receiver_taken_for_undeclared :
    ¬ ∀ (units : List SourceUnit) (i : Nat) (unit : SourceUnit), units[i]? = some unit →
      ∀ c, IsIn unit.tree c → ∀ limit more s, limit ≤ more →
        resolve? (.build units) limit i c = some s →
          resolve? (.build units) more i c = some s := by
  obtain ⟨c, hc, _, _, _, hsome, hne⟩ := Chain.callee_answers
  obtain ⟨s, hs⟩ := Option.isSome_iff_exists.1 hsome
  intro hkept
  have hmore := hkept [Chain.unit] 0 Chain.unit rfl c (is_in_iff_mem_reach.2 hc) 2 3 s
    (by decide) hs
  exact hne (hs.trans hmore.symm)

end MemberReach.Typing
