import MemberReach.Proofs.LoopVariables
import MemberReach.Proofs.TypingLimit

/-!
# Chains of typing

To type an expression the type of at most one other one is asked for (`asked?`): what stands in
parentheses, the receiver of a member access or of a callee, or what a name is bound to
(`same_at_of_asked`). So typing follows a chain of expressions. A step of the chain goes down or
back in the tree, and lowers the rank of the expression (`rank_lt_of_asked`), except from a name to
the collection of a loop that the name does not come after (`BoundAhead`). A chain without such a
step does not come back to where it was (`Settles.rank_lt`), is at its end after less than one step
for each node of the tree, and no limit beyond that makes a difference (`Settles.same_at`).
-/

namespace MemberReach.Typing

open Cursor Binding

variable {tree : Node} {c d n call : Cursor}

/-! ### What is asked for -/

/-- The receiver of a callee. -/
def calleeReceiver? (call : Cursor) : Option Cursor := do
  let function ← (call.child? .function).filter fun f ↦ f.kind == .memberAccessExpression
  return (← Env.access? function).2

/-- The expression whose type is asked for to type an expression. -/
def asked? (c : Cursor) : Option Cursor :=
  match c.kind with
  | .parenthesizedExpression => c.namedChild? 0
  | .identifier =>
      match Binding.find? c c.text with
      | some (.initialized value) => some value
      | some (.element collection) => some collection
      | some (.outArgument declaration) => (callAround? declaration).bind calleeReceiver?
      | _ => none
  | .memberAccessExpression => (Env.access? c).map Prod.snd
  | .invocationExpression => calleeReceiver? c
  | _ => none

/-- An expression asks for another one. -/
def Asks (c n : Cursor) : Prop :=
  asked? c = some n

section Congr

variable (env : Env) {typed typed' : Cursor → Option TypeKey}

/-- The method that a call invokes depends on the type of the receiver of the callee only. -/
theorem callee_congr (h : ∀ n, calleeReceiver? call = some n → typed n = typed' n) :
    env.callee? typed call = env.callee? typed' call := by
  unfold Env.callee?
  cases hfunction : call.child? .function with
  | none => rfl
  | some f =>
      simp only [Option.bind_eq_bind, Option.bind_some]
      refine congrArg (Option.bind · _) ?_
      unfold Env.symbol?
      split
      next hkind =>
        unfold Env.memberAccess?
        cases haccess : Env.access? f with
        | none => rfl
        | some pair =>
            have hreceiver : calleeReceiver? call = some pair.2 := by
              simp [calleeReceiver?, hfunction, Option.filter, hkind, haccess]
            simp only [Option.bind_eq_bind, Option.bind_some, h pair.2 hreceiver]
      all_goals rfl

/-- The type of an output argument depends on the type of the receiver of the callee only. -/
theorem out_argument_congr
    (h : ∀ n, (callAround? d).bind calleeReceiver? = some n → typed n = typed' n) :
    env.outArgumentType? typed d = env.outArgumentType? typed' d := by
  simp only [callAround?, Option.bind_eq_bind] at h
  simp only [Env.outArgumentType?, Option.bind_eq_bind]
  cases hargument : d.parent?.filter fun parent ↦ parent.kind == .argument with
  | none => rfl
  | some argument =>
      cases hlist : argument.parent? with
      | none => simp only [Option.bind_some, hlist, Option.bind_none]
      | some list =>
          cases hcall : list.parent?.filter fun parent ↦ parent.kind == .invocationExpression with
          | none => simp only [Option.bind_some, hlist, hcall, Option.bind_none]
          | some call =>
              simp only [hargument, Option.bind_some, hlist, hcall] at h
              simp only [Option.bind_some, hlist, hcall, callee_congr env h]

end Congr

/-- Types and descriptors of an expression at a depth are the same within two limits. -/
def SameAt (env : Env) (limit more depth : Nat) (c : Cursor) : Prop :=
  typeOf? env limit depth c = typeOf? env more depth c ∧
    descriptorOf? env limit depth c = descriptorOf? env more depth c

section Step

variable {env : Env} {limit more depth : Nat} (hlimit : depth ≤ limit) (hmore : depth ≤ more)
  (hasked : ∀ n, Asks c n → ∀ further, depth < further → further ≤ depth + 3 →
    SameAt env limit more further n)

include hlimit hmore hasked

/-- The type of an expression depends on what is asked for only. -/
theorem type_of_asked : typeOf? env limit depth c = typeOf? env more depth c := by
  unfold Asks asked? at hasked
  rw [typeOf?, dif_neg (Nat.not_lt.2 hlimit), typeOf?, dif_neg (Nat.not_lt.2 hmore)]
  split
  case h_1 hkind =>
    -- an expression in parentheses
    simp only [hkind] at hasked
    refine Option.bind_congr fun inner hinner ↦ ?_
    exact (hasked inner hinner (depth + 1) (by omega) (by omega)).1
  case h_4 hkind =>
    -- a name
    simp only [hkind] at hasked
    cases hfind : Binding.find? c c.text with
    | none => rfl
    | some binding =>
        simp only [hfind] at hasked
        cases binding with
        | declared descriptor => rfl
        | initialized value => exact (hasked value rfl (depth + 1) (by omega) (by omega)).1
        | element collection =>
            have hsame := (hasked collection rfl (depth + 1) (by omega) (by omega)).2
            simp only [hsame]
        | outArgument declaration =>
            exact out_argument_congr env fun n hn ↦
              (hasked n hn (depth + 3) (by omega) (by omega)).1
  case h_8 hkind =>
    -- a member access
    simp only [hkind] at hasked
    cases haccess : Env.access? c with
    | none => rfl
    | some pair =>
        have hsame := (hasked pair.2 (by rw [haccess]; rfl) (depth + 1) (by omega) (by omega)).1
        simp only [Option.bind_some, hsame]
  case h_9 hkind =>
    -- a call
    simp only [hkind] at hasked
    have hcallee := callee_congr env fun n hn ↦
      (hasked n hn (depth + 2) (by omega) (by omega)).1
    rw [hcallee]
  all_goals rfl

/-- The descriptor of an expression depends on what is asked for only. -/
theorem descriptor_of_asked : descriptorOf? env limit depth c = descriptorOf? env more depth c := by
  unfold Asks asked? at hasked
  rw [descriptorOf?, dif_neg (Nat.not_lt.2 hlimit), descriptorOf?, dif_neg (Nat.not_lt.2 hmore)]
  split
  case h_1 hkind =>
    simp only [hkind] at hasked
    refine Option.bind_congr fun inner hinner ↦ ?_
    exact (hasked inner hinner (depth + 1) (by omega) (by omega)).2
  case h_5 hkind =>
    -- a name
    simp only [hkind] at hasked
    cases hfind : Binding.find? c c.text with
    | none => rfl
    | some binding =>
        simp only [hfind] at hasked
        cases binding with
        | initialized value => exact (hasked value rfl (depth + 1) (by omega) (by omega)).2
        | _ => rfl
  case h_6 hkind =>
    -- a member access
    simp only [hkind] at hasked
    cases haccess : Env.access? c with
    | none => rfl
    | some pair =>
        have hsame := (hasked pair.2 (by rw [haccess]; rfl) (depth + 1) (by omega) (by omega)).1
        simp only [Option.bind_some, hsame]
  case h_7 hkind =>
    -- a call
    simp only [hkind] at hasked
    have hcallee := callee_congr env fun n hn ↦
      (hasked n hn (depth + 2) (by omega) (by omega)).1
    rw [hcallee]
  all_goals rfl

/-- Types and descriptors of an expression depend on those of what is asked for only. -/
theorem same_at_of_asked : SameAt env limit more depth c :=
  ⟨type_of_asked hlimit hmore hasked, descriptor_of_asked hlimit hmore hasked⟩

end Step

/-! ### Where a chain leads -/

/-- The callee of every call is its first child, and is not what holds the arguments. -/
def CalleesFirst (tree : Node) : Prop :=
  ∀ call, IsIn tree call → call.kind = .invocationExpression → ∀ f ∈ call.child? .function,
    call.children.head?.any (fun g ↦ g.sameNode f) ∧ ∀ a ∈ f.children, a.kind ≠ .argument

instance (tree : Node) : Decidable (CalleesFirst tree) :=
  inferInstanceAs (Decidable (∀ call, IsIn tree call → _))

/-- A name is bound to the collection of a loop, and does not come after the collection. -/
def BoundAhead (c : Cursor) : Prop :=
  ∃ collection, Binding.find? c c.text = some (.element collection) ∧ ¬ collection.Precedes c

/-- The receiver of a member access is a child of it. -/
theorem mem_children_of_access {pair : String × Cursor} (h : Env.access? c = some pair) :
    pair.2 ∈ c.children := by
  simp only [Env.access?, Option.bind_eq_bind, Option.bind_eq_some_iff, Option.pure_def,
    Option.some.injEq] at h
  obtain ⟨_, _, _, _, receiver, hreceiver, rfl⟩ := h
  exact mem_children_of_child hreceiver

/-- The receiver of a callee is a child of the callee. -/
theorem callee_receiver_cases (h : calleeReceiver? call = some n) :
    ∃ f, call.child? .function = some f ∧ n ∈ f.children := by
  simp only [calleeReceiver?, Option.bind_eq_bind, Option.bind_eq_some_iff, Option.pure_def,
    Option.some.injEq, Option.filter_eq_some_iff] at h
  obtain ⟨f, ⟨hf, _⟩, pair, haccess, rfl⟩ := h
  exact ⟨f, hf, mem_children_of_access haccess⟩

/-- A declaration in an argument stands in a list of arguments of the call. -/
theorem call_around_cases (hd : IsIn tree d) (h : callAround? d = some call) :
    IsIn tree call ∧ call.kind = .invocationExpression ∧ ∃ argument list, d ∈ argument.children ∧
      argument.kind = .argument ∧ argument ∈ list.children ∧ list ∈ call.children := by
  simp only [callAround?, Option.bind_eq_bind, Option.bind_eq_some_iff,
    Option.filter_eq_some_iff, beq_iff_eq] at h
  obtain ⟨argument, ⟨hargument, hkind⟩, list, hlist, hcall, hcallKind⟩ := h
  obtain ⟨hargumentIn, hd⟩ := hd.parent hargument
  obtain ⟨hlistIn, hargument⟩ := hargumentIn.parent hlist
  obtain ⟨hcallIn, hlist⟩ := hlistIn.parent hcall
  exact ⟨hcallIn, hcallKind, argument, list, hd, hkind, hargument, hlist⟩

/-- The receiver of the callee of a call precedes what is declared in the arguments. -/
theorem receiver_precedes (hcallees : CalleesFirst tree) (hd : IsIn tree d)
    (hcall : callAround? d = some call) (hn : calleeReceiver? call = some n) :
    IsIn tree n ∧ n.Precedes d := by
  obtain ⟨hcallIn, hkind, argument, list, hd, hargumentKind, hargument, hlist⟩ :=
    call_around_cases hd hcall
  obtain ⟨f, hf, hn⟩ := callee_receiver_cases hn
  obtain ⟨hfirst, hplain⟩ := hcallees call hcallIn hkind f hf
  have hfIn := hcallIn.child (mem_children_of_child hf)
  refine ⟨hfIn.child hn, call, f, list, ?_, ?_, ?_⟩
  · -- the callee is the first child, and the list is another one
    cases hchildren : call.children with
    | nil =>
        rw [hchildren] at hlist
        cases hlist
    | cons g rest =>
        rw [hchildren] at hlist
        have hg : g ∈ call.children := hchildren ▸ List.mem_cons_self
        rw [hchildren, List.head?_cons, Option.any_some] at hfirst
        obtain rfl := (hcallIn.child hg).eq_of_path hfIn (eq_of_beq hfirst)
        rcases List.mem_cons.1 hlist with rfl | hlist
        · exact absurd hargumentKind (hplain argument hargument)
        · exact (List.singleton_sublist.2 hlist).cons_cons g
  · rw [ancestors_of_mem_children hn]
    exact List.mem_cons_of_mem n List.mem_cons_self
  · rw [ancestors_of_mem_children hd, ancestors_of_mem_children hargument]
    exact List.mem_cons_of_mem d (List.mem_cons_of_mem argument List.mem_cons_self)

/-- What is asked for is a node of the tree. It has a lower rank, unless the expression is bound
ahead. -/
theorem rank_lt_of_asked (htree : tree.wellFormed) (hcallees : CalleesFirst tree)
    (hc : IsIn tree c) (hn : Asks c n) : IsIn tree n ∧ (¬ BoundAhead c → n.rank < c.rank) := by
  unfold Asks asked? at hn
  split at hn
  next =>
    have hchild := mem_children_of_named (List.mem_of_getElem? hn)
    exact ⟨hc.child hchild, fun _ ↦ (rank_of_mem_children hchild).2⟩
  next =>
    cases hfind : Binding.find? c c.text with
    | none =>
        rw [hfind] at hn
        cases hn
    | some binding =>
        rw [hfind] at hn
        cases binding with
        | declared descriptor => cases hn
        | initialized value =>
            cases hn
            have hvalue := is_in_of_find htree hc hfind rfl
            exact ⟨hvalue, fun _ ↦ (initialized_precedes htree hc hfind).rank_lt hvalue hc⟩
        | element collection =>
            cases hn
            have hcollection := is_in_of_find htree hc hfind rfl
            refine ⟨hcollection, fun hahead ↦ ?_⟩
            have hprecedes : n.Precedes c := by
              by_contra hprecedes
              exact hahead ⟨n, hfind, hprecedes⟩
            exact hprecedes.rank_lt hcollection hc
        | outArgument declaration =>
            obtain ⟨call, hcall, hreceiver⟩ := Option.bind_eq_some_iff.1 hn
            have hdeclaration := is_in_of_find htree hc hfind rfl
            obtain ⟨hnIn, hprecedes⟩ := receiver_precedes hcallees hdeclaration hcall hreceiver
            have hafter := out_argument_precedes htree hc hfind
            exact ⟨hnIn, fun _ ↦
              Nat.lt_trans (hprecedes.rank_lt hnIn hdeclaration) (hafter.rank_lt hdeclaration hc)⟩
  next =>
    obtain ⟨pair, haccess, rfl⟩ := Option.map_eq_some_iff.1 hn
    have hchild := mem_children_of_access haccess
    exact ⟨hc.child hchild, fun _ ↦ (rank_of_mem_children hchild).2⟩
  next =>
    obtain ⟨f, hf, hn⟩ := callee_receiver_cases hn
    have hf := mem_children_of_child hf
    exact ⟨(hc.child hf).child hn, fun _ ↦
      Nat.lt_trans (rank_of_mem_children hn).2 (rank_of_mem_children hf).2⟩
  next => cases hn

/-! ### Chains that end -/

/-- A chain that does not meet an expression that is bound ahead. -/
def Settles (c : Cursor) : Prop :=
  ∀ n, Relation.ReflTransGen Asks c n → ¬ BoundAhead n

/-- What is asked for on a chain that settles settles too. -/
theorem Settles.asked (h : Settles c) (hn : Asks c n) : Settles n :=
  fun m hm ↦ h m (Relation.ReflTransGen.head hn hm)

/-- A chain that settles does not come back to an expression: the rank falls. -/
theorem Settles.rank_lt (htree : tree.wellFormed) (hcallees : CalleesFirst tree)
    (hsettles : Settles c) (hc : IsIn tree c) (hn : Relation.TransGen Asks c n) :
    IsIn tree n ∧ n.rank < c.rank := by
  induction hn with
  | single hn =>
      obtain ⟨hin, hrank⟩ := rank_lt_of_asked htree hcallees hc hn
      exact ⟨hin, hrank (hsettles c Relation.ReflTransGen.refl)⟩
  | tail hm hn ih =>
      obtain ⟨hin, hrank⟩ := rank_lt_of_asked htree hcallees ih.1 hn
      exact ⟨hin, Nat.lt_trans (hrank (hsettles _ hm.to_reflTransGen)) ih.2⟩

/-- A chain that settles is typed the same within all limits that leave three levels for each node
in front of the expression. -/
theorem Settles.same_at (htree : tree.wellFormed) (hcallees : CalleesFirst tree) (env : Env)
    {limit more depth : Nat} (hsettles : Settles c) (hc : IsIn tree c)
    (hlimit : depth + 3 * c.rank ≤ limit) (hmore : depth + 3 * c.rank ≤ more) :
    SameAt env limit more depth c := by
  induction hrank : c.rank using Nat.strongRecOn generalizing c depth with
  | _ rank ih =>
      refine same_at_of_asked (by omega) (by omega) fun n hn further hlt hle ↦ ?_
      obtain ⟨hin, hfalls⟩ := hsettles.rank_lt htree hcallees hc (Relation.TransGen.single hn)
      exact ih n.rank (by omega) (hsettles.asked hn) hin (by omega) (by omega) rfl

/-- Names are in scope at a node as they should exactly if no name in the collection of a loop is
bound to the loop, apart from those that the other declarations give the same binding. Typing comes
back to an expression only if it meets a name that is bound to a loop and does not come after the
collection. If it meets none it ends: three levels for each node of the tree are enough, and beyond
them no limit makes a difference. -/
theorem loop_variable_scope (htree : tree.wellFormed) (hcallees : CalleesFirst tree)
    (hc : IsIn tree c) :
    (∀ name, ScopedAt c name ↔ ∀ loop collection, loop.kind = .foreachStatement →
      loop.child? .right = some collection → collection ∈ c :: c.ancestors →
        BoundToLoop loop c name → declaredBy? name loop = without loop c name) ∧
    (Relation.TransGen Asks c c → ∃ n, Relation.ReflTransGen Asks c n ∧ BoundAhead n) ∧
    (Settles c → ∀ env limit more depth, depth + 3 * tree.size ≤ limit →
      depth + 3 * tree.size ≤ more → SameAt env limit more depth c) := by
  refine ⟨scoped_at_iff htree hc, fun hreturns ↦ ?_, fun hsettles env limit more depth hl hm ↦ ?_⟩
  · by_contra hnone
    have hsettles : Settles c := fun n hn hahead ↦ hnone ⟨n, hn, hahead⟩
    exact Nat.lt_irrefl _ (hsettles.rank_lt htree hcallees hc hreturns).2
  · have hrank := hc.rank_le
    exact hsettles.same_at htree hcallees env hc (by omega) (by omega)

end MemberReach.Typing

namespace MemberReach.Looped

/-- A loop over the names in a call, where a function has a parameter with the name of the loop
variable. -/
def hiddenSource : String :=
  "class A \x7b void M(A a) \x7b foreach (var x in a.N((A x) => x)) \x7b \x7d \x7d \x7d"

/-- The file with this text. -/
def hidden : SourceUnit :=
  .create ⟨"A.cs"⟩ none hiddenSource (Node.ofSource hiddenSource)

/-- A loop over a member of a field, where the loop variable has the name of the field. -/
def ownSource : String :=
  "class A \x7b A x; void M() \x7b foreach (var x in x.S) \x7b \x7d \x7d \x7d"

/-- The file with this text. -/
def own : SourceUnit :=
  .create ⟨"A.cs"⟩ none ownSource (Node.ofSource ownSource)

end MemberReach.Looped

namespace MemberReach.Typing

open Cursor Binding

/-- The parameter of a function in a collection is in scope there, and not the variable of the loop
that has the same name; typing it asks for nothing. -/
theorem loop_variable_scope_parameter :
    Looped.hidden.tree.wellFormed ∧ CalleesFirst Looped.hidden.tree ∧
      ∃ c, IsIn Looped.hidden.tree c ∧
        (∃ loop ∈ c.ancestors, loop.kind = .foreachStatement ∧ (declaredBy? "x" loop).isSome ∧
          ∃ r ∈ c.ancestors, (loop.child? .right).any r.sameNode) ∧
        ScopedAt c "x" ∧ ¬ Relation.TransGen Asks c c ∧ ∀ env limit more,
          1 + 3 * Looped.hidden.tree.size ≤ limit → 1 + 3 * Looped.hidden.tree.size ≤ more →
            SameAt env limit more 1 c := by
  have hfacts : Looped.hidden.tree.wellFormed ∧ CalleesFirst Looped.hidden.tree ∧
      ∃ c ∈ reach [] Looped.hidden.tree, c.kind = .identifier ∧
        (∃ f ∈ enclosing c, (parameterOf? "x" f).isSome) ∧ c.text = "x" ∧
        (∃ loop ∈ c.ancestors, loop.kind = .foreachStatement ∧ (declaredBy? "x" loop).isSome ∧
          ∃ r ∈ c.ancestors, (loop.child? .right).any r.sameNode) ∧
          (asked? c).isNone := by decide +kernel
  obtain ⟨htree, hcallees, c, hc, _, ⟨f, hf, hparameter⟩, htext, hloop, hasked⟩ := hfacts
  have hc := is_in_iff_mem_reach.2 hc
  have hnone : asked? c = none := Option.isNone_iff_eq_none.1 hasked
  have hsettles : Settles c := by
    intro n hn
    rcases Relation.ReflTransGen.cases_head hn with rfl | ⟨m, hm, _⟩
    · rintro ⟨collection, hfind, _⟩
      rw [htext] at hfind
      rw [(last_of_find htree hc hfind nofun).1 f hf] at hparameter
      cases hparameter
    · rw [Asks, hnone] at hm
      cases hm
  obtain ⟨hscoped, hreturns, hsame⟩ := loop_variable_scope htree hcallees hc
  refine ⟨htree, hcallees, c, hc, hloop, (hscoped "x").2 ?_, fun h ↦ ?_,
    fun env limit more hlimit hmore ↦ hsame hsettles env limit more 1 hlimit hmore⟩
  · intro loop collection _ _ _ hbound
    rw [hbound.parameters f hf] at hparameter
    cases hparameter
  · obtain ⟨n, hn, hahead⟩ := hreturns h
    exact hsettles n hn hahead

/-- A name in a collection is bound to the variable of the loop, and typing it returns to it. -/
theorem loop_variable_in_own_collection :
    ¬ (∀ (unit : SourceUnit) c name, unit.tree.wellFormed → CalleesFirst unit.tree →
      IsIn unit.tree c → ScopedAt c name) ∧
    ¬ ∀ (unit : SourceUnit) c, unit.tree.wellFormed → CalleesFirst unit.tree →
      IsIn unit.tree c → ¬ Relation.TransGen Asks c c := by
  have hfacts : Looped.own.tree.wellFormed ∧ CalleesFirst Looped.own.tree ∧
      ∃ c ∈ reach [] Looped.own.tree,
        (∃ m ∈ asked? c, ∃ d ∈ asked? m, d.path = c.path) ∧
        ∃ loop ∈ c.ancestors, loop.kind = .foreachStatement ∧
          (∃ r ∈ loop.child? .right, ∃ a ∈ c.ancestors, r.path = a.path) ∧
          (find? c "x").isSome ∧ (without loop c "x").isNone := by decide +kernel
  obtain ⟨htree, hcallees, c, hc, ⟨m, hm, d, hd, hdc⟩, loop, hloop, hkind, ⟨r, hr, a, ha, hra⟩,
    hsome, hnone⟩ := hfacts
  have hc := is_in_iff_mem_reach.2 hc
  constructor
  · intro hscoped
    have hrIn := (hc.ancestor hloop).child (mem_children_of_child hr)
    obtain rfl := hrIn.eq_of_path (hc.ancestor ha) hra
    have hsame := (hscoped Looped.own c "x" htree hcallees hc).outside loop r hkind hr
      (List.mem_cons_of_mem c ha)
    rw [hsame, Option.isSome_iff_ne_none] at hsome
    exact hsome (Option.isNone_iff_eq_none.1 hnone)
  · intro hacyclic
    have hmIn := (rank_lt_of_asked htree hcallees hc hm).1
    obtain rfl := (rank_lt_of_asked htree hcallees hmIn hd).1.eq_of_path hc hdc
    have hforth : Asks d m := hm
    have hback : Asks m d := hd
    exact hacyclic Looped.own d htree hcallees hc ((Relation.TransGen.single hforth).tail hback)

end MemberReach.Typing
