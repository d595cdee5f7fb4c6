import MemberReach.Grammar.Rules
import MemberReach.Proofs.QualifiedNames

/-!
# Type arguments

A descriptor names a type by identifiers with dots between them, and each of them may have type
arguments behind it. Everything from the first angle bracket on is cut off before the look-up, so a
descriptor denotes what its parts up to the first one with arguments denote (`resolve_written`).
Where other parts follow, that is not what the descriptor without arguments denotes, and
`type_arguments_erased_iff` says that this is the only case.
-/

namespace MemberReach

open Text

namespace Text

/-- A text in front of others is joined to them with the separator between. -/
theorem join_cons (part : String) {parts : List String} (h : parts ≠ []) :
    (join "." (part :: parts)).toList = part.toList ++ '.' :: (join "." parts).toList := by
  rw [join, join, String.toList_ofList, String.toList_ofList, List.map_cons,
    List.intercalate_cons_of_ne_nil (by simpa using h)]
  simp

/-- A single text is joined to nothing. -/
theorem join_singleton (part : String) : join "." [part] = part := by
  simp [join]

/-- Leaving texts out at the end makes what is joined shorter. -/
theorem join_append_length {front rest : List String} (hfront : front ≠ []) (hrest : rest ≠ []) :
    (join "." front).toList.length < (join "." (front ++ rest)).toList.length := by
  induction front with
  | nil => exact absurd rfl hfront
  | cons part front ih =>
      rw [List.cons_append, join_cons part (List.append_ne_nil_of_right_ne_nil front hrest)]
      cases front with
      | nil =>
          rw [join_singleton, List.length_append, List.length_cons]
          omega
      | cons next front =>
          have hshorter := ih (List.cons_ne_nil next front)
          rw [join_cons part (List.cons_ne_nil next front)]
          simp only [List.length_append, List.length_cons]
          omega

end Text

namespace Descriptor

/-! ### Parts of a descriptor -/

/-- Whether every angle bracket has its counterpart, with `depth` of them open at the start. -/
def isBalanced : Nat → List Char → Bool
  | depth, [] => depth == 0
  | depth, c :: rest =>
      if c = '<' then isBalanced (depth + 1) rest
      else if c = '>' then depth != 0 && isBalanced (depth - 1) rest
      else isBalanced depth rest

/-- A text without its argument lists, with `depth` of their brackets open at the start. -/
def withoutLists : Nat → List Char → List Char
  | _, [] => []
  | depth, c :: rest =>
      if c = '<' then withoutLists (depth + 1) rest
      else if depth = 0 then c :: withoutLists 0 rest
      else withoutLists (if c = '>' then depth - 1 else depth) rest

/-- A descriptor with all argument lists erased. -/
def erased (descriptor : String) : String :=
  String.ofList (withoutLists 0 descriptor.toList)

/-- A part of a descriptor: an identifier, and what stands between the angle brackets behind it, if
there are any. -/
structure Part where
  name : String
  arguments : Option String
  isName : isIdentifier name
  isClosed : ∀ list ∈ arguments, isBalanced 0 list.toList

namespace Part

/-- The argument list of a part with its brackets. -/
def list (part : Part) : List Char :=
  (part.arguments.map fun list ↦ '<' :: list.toList ++ ['>']).getD []

/-- A part as it is written. -/
def text (part : Part) : String :=
  String.ofList (part.name.toList ++ part.list)

/-- A part without arguments is written as its name. -/
theorem text_of_none {part : Part} (h : part.arguments = none) : part.text = part.name := by
  rw [text, list, h, Option.map_none, Option.getD_none, List.append_nil, String.ofList_toList]

/-- An argument list starts with a bracket. -/
theorem head_list (part : Part) : ∀ c ∈ part.list.head?, c = '<' := by
  rw [list]
  cases part.arguments with
  | none => nofun
  | some list => exact fun c hc ↦ (Option.some.inj hc).symm

/-- A part ends with a character of its name or with a bracket. -/
theorem last_text (part : Part) : ∀ c ∈ part.text.toList.getLast?, IsPlain [c] := by
  intro c hc
  have hname := IsPlain.of_identifier part.isName
  rw [text, String.toList_ofList, list] at hc
  cases harguments : part.arguments with
  | none =>
      rw [harguments, Option.map_none, Option.getD_none, List.append_nil] at hc
      have hmem := List.mem_of_getLast? hc
      exact .singleton (hname.visible c hmem) (hname.unmarked c hmem)
  | some list =>
      rw [harguments, Option.map_some, Option.getD_some, ← List.append_assoc,
        List.getLast?_concat] at hc
      cases hc
      exact .singleton (by decide) (by decide)

end Part

/-- The descriptor that consists of some parts. -/
def written (parts : List Part) : String :=
  join "." (parts.map Part.text)

/-- The name that consists of the identifiers of some parts. -/
def named (parts : List Part) : String :=
  join "." (parts.map Part.name)

/-- The parts up to the first one that has arguments. -/
def cut : List Part → List Part
  | [] => []
  | part :: rest => if part.arguments.isSome then [part] else part :: cut rest

/-- Only the last part has arguments. -/
def ArgumentsLast (parts : List Part) : Prop :=
  ∀ part ∈ parts.dropLast, part.arguments = none

variable {parts : List Part}

/-- The identifiers of some parts make up a plain name. -/
theorem IsPlain.of_named (h : parts ≠ []) : IsPlain (named parts).toList := by
  refine IsPlain.of_join (by simpa using h) fun name hname ↦ ?_
  obtain ⟨part, _, rfl⟩ := List.mem_map.1 hname
  exact part.isName

/-- The parts up to some place are not none at all. -/
theorem cut_ne_nil (h : parts ≠ []) : cut parts ≠ [] := by
  obtain ⟨part, rest, rfl⟩ := List.exists_cons_of_ne_nil h
  rw [cut]
  split <;> exact List.cons_ne_nil _ _

/-- The parts up to the first one with arguments are a prefix, and all of them only if there is no
such part before the last one. -/
theorem cut_cases (h : parts ≠ []) :
    (cut parts = parts ∧ ArgumentsLast parts) ∨
      ¬ ArgumentsLast parts ∧ ∃ rest, rest ≠ [] ∧ parts = cut parts ++ rest := by
  induction parts with
  | nil => exact absurd rfl h
  | cons part rest ih =>
      rw [cut]
      cases rest with
      | nil => exact Or.inl ⟨by split <;> rfl, nofun⟩
      | cons next rest =>
          have hlast : ArgumentsLast (part :: next :: rest) ↔
              part.arguments = none ∧ ArgumentsLast (next :: rest) := by
            simp [ArgumentsLast]
          rw [hlast]
          cases harguments : part.arguments with
          | some list => exact Or.inr ⟨nofun, next :: rest, List.cons_ne_nil next rest, rfl⟩
          | none =>
              rw [Option.isSome_none, if_neg Bool.false_ne_true]
              rcases ih (List.cons_ne_nil next rest) with ⟨hcut, hall⟩ | ⟨hnot, others, hne, hcut⟩
              · exact Or.inl ⟨by rw [hcut], rfl, hall⟩
              · exact Or.inr ⟨fun h ↦ hnot h.2, others, hne, by rw [List.cons_append, ← hcut]⟩

/-- A descriptor ends as its last part does. -/
theorem last_written (h : parts ≠ []) : ∀ c ∈ (written parts).toList.getLast?, IsPlain [c] := by
  obtain ⟨front, last, rfl⟩ := (List.eq_nil_or_concat parts).resolve_left h
  intro c hc
  rw [written, List.concat_eq_append, List.map_append, List.map_singleton, join_concat,
    List.getLast?_append, Option.mem_def, Option.or_eq_some_iff] at hc
  rcases hc with hc | ⟨hnone, _⟩
  · exact last.last_text c hc
  · rw [List.getLast?_eq_none_iff, Part.text, String.toList_ofList, List.append_eq_nil_iff] at hnone
    exact absurd hnone.1 (IsPlain.of_identifier last.isName).nonempty

/-- A descriptor starts with the identifiers up to the first argument list, which follows them. -/
theorem written_split (h : parts ≠ []) :
    ∃ rest, (written parts).toList = (named (cut parts)).toList ++ rest ∧
      ∀ c ∈ rest.head?, c = '<' := by
  induction parts with
  | nil => exact absurd rfl h
  | cons part rest ih =>
      have htext : part.text.toList = part.name.toList ++ part.list := String.toList_ofList
      cases rest with
      | nil =>
          refine ⟨part.list, ?_, part.head_list⟩
          have hcut : cut [part] = [part] := by
            rw [cut]
            split <;> rfl
          rw [hcut, written, named, List.map_singleton, List.map_singleton, join_singleton,
            join_singleton, htext]
      | cons next rest =>
          obtain ⟨after, hafter, hopen⟩ := ih (List.cons_ne_nil next rest)
          have hwritten : (written (part :: next :: rest)).toList =
              part.text.toList ++ '.' :: (written (next :: rest)).toList :=
            join_cons part.text (by simp)
          cases harguments : part.arguments with
          | some list =>
              -- the first list belongs to the first part
              refine ⟨part.list ++ '.' :: (written (next :: rest)).toList, ?_, ?_⟩
              · rw [hwritten, cut, harguments, Option.isSome_some, if_pos rfl, named,
                  List.map_singleton, join_singleton, htext, List.append_assoc]
              · rw [Part.list, harguments]
                exact fun c hc ↦ (Option.some.inj hc).symm
          | none =>
              refine ⟨after, ?_, hopen⟩
              have hnamed : (named (part :: cut (next :: rest))).toList =
                  part.name.toList ++ '.' :: (named (cut (next :: rest))).toList :=
                join_cons part.name (by simpa using cut_ne_nil (List.cons_ne_nil next rest))
              rw [hwritten, cut, harguments, Option.isSome_none, if_neg Bool.false_ne_true, hnamed,
                Part.text_of_none harguments, hafter, List.append_assoc, List.cons_append]

/-- A descriptor is looked up as the identifiers up to the first argument list are. -/
theorem lookup_name_written (h : parts ≠ []) :
    lookupName? (written parts) = lookupName? (named (cut parts)) := by
  have hplain := IsPlain.of_named (cut_ne_nil h)
  obtain ⟨rest, hsplit, hopen⟩ := written_split h
  have hend : ∀ c ∈ rest.getLast?, IsPlain [c] := by
    intro c hc
    refine last_written h c ?_
    rw [hsplit, List.getLast?_append, hc, Option.some_or]
    rfl
  have hlookup := lookup_name_of_front hplain hopen hend
  rw [← hsplit, String.ofList_toList] at hlookup
  rw [hlookup, lookup_name_of_plain hplain]

/-! ### Erasing arguments -/

/-- What stands before the first bracket stays. -/
theorem without_lists_append {front : List Char} (h : '<' ∉ front) (rest : List Char) :
    withoutLists 0 (front ++ rest) = front ++ withoutLists 0 rest := by
  induction front with
  | nil => rfl
  | cons c front ih =>
      have hc : c ≠ '<' := fun hc ↦ h (hc ▸ List.mem_cons_self)
      rw [List.cons_append, withoutLists, if_neg hc, if_pos rfl,
        ih fun hmem ↦ h (List.mem_cons_of_mem c hmem), List.cons_append]

/-- Inside a list everything is left out until the list is closed. -/
theorem without_lists_balanced {list : List Char} {depth : Nat} (h : isBalanced depth list)
    (rest : List Char) :
    withoutLists (depth + 1) (list ++ '>' :: rest) = withoutLists 0 rest := by
  induction list generalizing depth with
  | nil =>
      have hdepth : depth = 0 := by simpa [isBalanced] using h
      rw [hdepth]
      rfl
  | cons c list ih =>
      rw [List.cons_append, withoutLists, if_neg (Nat.succ_ne_zero depth)]
      rw [isBalanced] at h
      split at h
      next hopen => rw [if_pos hopen, ih h]
      next hopen =>
        rw [if_neg hopen]
        split at h
        next hclose =>
          rw [Bool.and_eq_true, bne_iff_ne] at h
          obtain ⟨outer, rfl⟩ := Nat.exists_eq_succ_of_ne_zero h.1
          rw [if_pos hclose]
          exact ih h.2
        next hclose => rw [if_neg hclose, ih h]

/-- Erasing the arguments of a part leaves its name. -/
theorem without_lists_text (part : Part) (rest : List Char) :
    withoutLists 0 (part.text.toList ++ rest) = part.name.toList ++ withoutLists 0 rest := by
  have hname : '<' ∉ part.name.toList := not_mem_of_identifier part.isName rfl
  rw [Part.text, String.toList_ofList, List.append_assoc, without_lists_append hname, Part.list]
  cases harguments : part.arguments with
  | none => rfl
  | some list =>
      have hclosed := part.isClosed list harguments
      rw [Option.map_some, Option.getD_some, List.cons_append, List.cons_append, withoutLists,
        if_pos rfl, List.append_assoc, List.singleton_append, without_lists_balanced hclosed]

/-- A descriptor with all argument lists erased is the name of its parts. -/
theorem erased_written (parts : List Part) : erased (written parts) = named parts := by
  have hchars : withoutLists 0 (written parts).toList = (named parts).toList := by
    induction parts with
    | nil => rfl
    | cons part rest ih =>
        cases rest with
        | nil =>
            have hpart := without_lists_text part []
            rw [List.append_nil, withoutLists, List.append_nil] at hpart
            rw [written, named, List.map_singleton, List.map_singleton, join_singleton,
              join_singleton, hpart]
        | cons next rest =>
            have hwritten : (written (part :: next :: rest)).toList =
                part.text.toList ++ '.' :: (written (next :: rest)).toList :=
              join_cons part.text (by simp)
            have hnamed : (named (part :: next :: rest)).toList =
                part.name.toList ++ '.' :: (named (next :: rest)).toList :=
              join_cons part.name (by simp)
            rw [hwritten, hnamed, without_lists_text, ← ih]
            rfl
  rw [erased, hchars, String.ofList_toList]

end Descriptor

/-! ### Declared types -/

namespace TypeKey

/-- A name that is joined from parts stands in a key as the parts do. -/
theorem of_parts_join {parts : List String} (h : parts ≠ []) (outer : List String) :
    ofParts outer [join "." parts] = ofParts outer parts := by
  obtain ⟨front, last, rfl⟩ := (List.eq_nil_or_concat parts).resolve_left h
  have hpath : join "." (outer ++ [join "." (front ++ [last])]) =
      join "." ((outer ++ front) ++ [last]) := by
    refine String.toList_injective ?_
    rw [join_concat, join_concat, join_concat, List.flatMap_append, List.append_assoc]
  rw [List.concat_eq_append, ofParts, hpath, ofParts, List.append_assoc]

end TypeKey

namespace Registry

open Descriptor

/-- The keys that are tried for a name are keys of the name below some path. -/
theorem below_of_candidate {r : Registry} {context : LookupContext} {name : String} {key : TypeKey}
    (h : key ∈ r.candidates context name) : ∃ outer, key = .ofParts outer [name] := by
  have hscope : key ∈ context.scope.candidates name → ∃ outer, key = .ofParts outer [name] := by
    rw [Scope.candidates_eq]
    intro hkey
    obtain ⟨outer, _, rfl⟩ := List.mem_map.1 hkey
    exact ⟨outer, rfl⟩
  have himported : key ∈ r.imported context name → ∃ outer, key = .ofParts outer [name] := by
    intro hkey
    obtain ⟨space, _, rfl⟩ := List.mem_map.1 hkey
    have hnested := TypeKey.nested_of_parts (List.cons_ne_nil space []) name
    exact ⟨[space], by rw [← hnested, join_singleton]⟩
  by_cases hdot : '.' ∈ name.toList
  · rw [candidates_of_dotted r context hdot, List.mem_append, List.mem_cons] at h
    -- the name itself and its keys below namespaces are among the candidates of the scope
    refine h.elim (fun hkey ↦ hscope ?_) himported
    rw [Scope.candidates_split]
    rcases hkey with rfl | hkey <;> simp [*]
  · rw [candidates, if_neg (by simpa using hdot), List.mem_append] at h
    exact h.elim hscope himported

variable {parts : List Part}

/-- A descriptor denotes what its identifiers up to the first argument list denote. -/
theorem resolve_written (r : Registry) (context : LookupContext) (h : parts ≠ []) :
    r.resolveType? (written parts) context = r.resolveType? (named (cut parts)) context := by
  rw [resolveType?, lookup_name_written h, ← resolveType?]

/-- The type that a name denotes has its last identifier as its own name. -/
theorem simple_name_of_resolved {r : Registry} {context : LookupContext} {key : TypeKey}
    (h : parts ≠ []) (hkey : r.resolveType? (named parts) context = some key) :
    parts.getLast?.map Part.name = some key.simpleName := by
  obtain ⟨name, hlookup, hfound⟩ := Option.bind_eq_some_iff.1 hkey
  rw [lookup_name_of_plain (IsPlain.of_named h)] at hlookup
  split at hlookup
  next => cases hlookup
  next =>
    cases hlookup
    obtain ⟨outer, rfl⟩ := below_of_candidate (List.mem_of_find?_eq_some hfound)
    obtain ⟨front, last, rfl⟩ := (List.eq_nil_or_concat parts).resolve_left h
    have hdot : '.' ∉ last.name.toList := not_mem_of_identifier last.isName rfl
    rw [named, TypeKey.of_parts_join (by simp), List.concat_eq_append, List.map_append,
      List.map_singleton, TypeKey.ofParts, ← List.append_assoc, ← TypeKey.ofParts,
      TypeKey.simple_name_of_parts hdot, List.getLast?_concat, Option.map_some]

/-- The registry of a single type without members. -/
def single (key : TypeKey) : Registry :=
  { empty with types := [{ (default : TypeDecl) with key := key }] }

/-- Outside of all namespaces and types, without imports, a name stands for nothing but itself. -/
theorem resolve_single {key found : TypeKey} {name : String} :
    (single key).resolveType? name ⟨0, ⟨[], []⟩⟩ = some found ↔
      lookupName? name = some key.path ∧ found = key := by
  have hcandidates : ∀ other, (single key).candidates ⟨0, ⟨[], []⟩⟩ other = [⟨other⟩] := by
    intro other
    have hself : TypeKey.ofParts [] [other] = ⟨other⟩ := congrArg TypeKey.mk (join_singleton other)
    rw [candidates]
    split
    next => rfl
    next => exact congrArg (fun self ↦ [self]) hself
  have hdeclared : ∀ other, (single key).isDeclared other ↔ key = other := by
    intro other
    simp [isDeclared, type?, single]
  rw [resolveType?, Option.bind_eq_bind, Option.bind_eq_some_iff]
  simp only [hcandidates, List.find?_singleton, hdeclared]
  constructor
  · rintro ⟨other, hlookup, hfound⟩
    split at hfound
    next hkey =>
      cases hfound
      exact ⟨by rw [hlookup, hkey], hkey.symm⟩
    next => cases hfound
  · rintro ⟨hlookup, rfl⟩
    exact ⟨found.path, hlookup, if_pos rfl⟩

/-- Where a part before the last one has arguments, a registry that has only the type without
arguments tells the descriptor from it. -/
theorem resolve_single_ne (h : parts ≠ []) (hnot : ¬ ArgumentsLast parts) :
    (single ⟨named parts⟩).resolveType? (written parts) ⟨0, ⟨[], []⟩⟩ ≠
      (single ⟨named parts⟩).resolveType? (named parts) ⟨0, ⟨[], []⟩⟩ := by
  obtain ⟨_, rest, hrest, hsplit⟩ := (cut_cases h).resolve_left fun hall ↦ hnot hall.2
  have hcut := cut_ne_nil h
  have hlength : 2 ≤ (parts.map Part.name).length := by
    have hfront := List.length_pos_of_ne_nil hcut
    have hback := List.length_pos_of_ne_nil hrest
    rw [hsplit, List.length_map, List.length_append]
    omega
  have hfull := lookup_name_of_dotted (IsPlain.of_named h) (dot_mem_join hlength)
  have hshorter : (named (cut parts)).toList.length < (named parts).toList.length := by
    have happend : named parts =
        join "." ((cut parts).map Part.name ++ rest.map Part.name) := by
      rw [← List.map_append, ← hsplit, named]
    rw [happend]
    exact join_append_length (by simpa using hcut) (by simpa using hrest)
  have hself : (single ⟨named parts⟩).resolveType? (named parts) ⟨0, ⟨[], []⟩⟩ =
      some ⟨named parts⟩ := resolve_single.2 ⟨hfull, rfl⟩
  rw [resolve_written _ _ h, hself]
  intro hsame
  have hlookup := (resolve_single.1 hsame).1
  rw [lookup_name_of_plain (IsPlain.of_named hcut)] at hlookup
  split at hlookup
  next => cases hlookup
  next =>
    rw [Option.some.inj hlookup] at hshorter
    exact Nat.lt_irrefl _ hshorter

/-- Type arguments make no difference in any registry and context exactly if only the last part of
a descriptor has them. What counts are the parts up to the first one with arguments. If these are
all parts, the type that the descriptor denotes has the last identifier as its own name. -/
theorem type_arguments_erased_iff (hparts : parts ≠ []) :
    ((∀ (r : Registry) (context : LookupContext), r.resolveType? (written parts) context =
        r.resolveType? (erased (written parts)) context) ↔ ArgumentsLast parts) ∧
      ∀ (r : Registry) (context : LookupContext),
        r.resolveType? (written parts) context = r.resolveType? (named (cut parts)) context ∧
          (ArgumentsLast parts → ∀ key, r.resolveType? (written parts) context = some key →
            parts.getLast?.map Part.name = some key.simpleName) := by
  have hcut : ArgumentsLast parts → cut parts = parts := fun hlast ↦
    ((cut_cases hparts).resolve_right fun hnot ↦ hnot.1 hlast).1
  rw [erased_written]
  refine ⟨⟨fun hsame ↦ ?_, fun hlast r context ↦ ?_⟩, fun r context ↦ ⟨?_, fun hlast key hkey ↦ ?_⟩⟩
  · by_contra hnot
    exact resolve_single_ne hparts hnot (hsame _ _)
  · rw [resolve_written r context hparts, hcut hlast]
  · exact resolve_written r context hparts
  · rw [resolve_written r context hparts, hcut hlast] at hkey
    exact simple_name_of_resolved hparts hkey

end Registry

namespace Generic

/-- A type with a type parameter and another type inside. -/
def source : String :=
  "class A<T> \x7b class B \x7b \x7d \x7d"

/-- The registry of a project of one file with this text. -/
def registry : Registry :=
  .build [.create ⟨"A.cs"⟩ none source (Node.ofSource source)]

/-- The place outside of all types of the file. -/
def top : LookupContext :=
  ⟨0, ⟨[], []⟩⟩

/-- The outer type with an argument. -/
def outer : Descriptor.Part :=
  ⟨"A", some "int", by decide, by decide⟩

/-- The outer type as it is. -/
def outerName : Descriptor.Part :=
  ⟨"A", none, by decide, nofun⟩

/-- The inner type as it is. -/
def inner : Descriptor.Part :=
  ⟨"B", none, by decide, nofun⟩

/-- The inner type with arguments, as if it had parameters. -/
def innerApplied : Descriptor.Part :=
  ⟨"B", some "A<int>, int[]", by decide, by decide⟩

end Generic

namespace Registry

open Descriptor Generic

/-- Arguments behind the last identifier make no difference. -/
theorem type_arguments_erased_iff_last :
    written [outerName, innerApplied] = "A.B<A<int>, int[]>" ∧
      ArgumentsLast [outerName, innerApplied] ∧
      registry.resolveType? (written [outerName, innerApplied]) top = some ⟨"A.B"⟩ ∧
      (TypeKey.mk "A.B").simpleName = "B" := by
  have hfacts : written [outerName, innerApplied] = "A.B<A<int>, int[]>" ∧
      registry.resolveType? (erased (written [outerName, innerApplied])) top = some ⟨"A.B"⟩ := by
    decide +kernel
  have hlast : ArgumentsLast [outerName, innerApplied] := by
    intro part hpart
    rw [List.mem_singleton.1 hpart]
    rfl
  obtain ⟨hiff, hcounts⟩ := type_arguments_erased_iff (List.cons_ne_nil outerName [innerApplied])
  have hfound := (hiff.2 hlast registry top).trans hfacts.2
  have hname := (hcounts registry top).2 hlast _ hfound
  exact ⟨hfacts.1, hlast, hfound, (Option.some.inj hname).symm⟩

/-- With arguments behind the first identifier, the descriptor of the inner type denotes the outer
one, whose own name is not the last identifier. -/
theorem type_arguments_cut_name :
    (written [outer, inner] = "A<int>.B" ∧ erased (written [outer, inner]) = "A.B" ∧
      registry.resolveType? "A<int>.B" top = some ⟨"A"⟩ ∧
      registry.resolveType? "A.B" top = some ⟨"A.B"⟩) ∧
    (¬ ∀ (r : Registry) context parts, parts ≠ [] →
      r.resolveType? (written parts) context = r.resolveType? (erased (written parts)) context) ∧
    ¬ ∀ (r : Registry) context parts key, parts ≠ [] →
      r.resolveType? (written parts) context = some key →
        parts.getLast?.map Part.name = some key.simpleName := by
  have hfacts : written [outer, inner] = "A<int>.B" ∧ erased (written [outer, inner]) = "A.B" ∧
      registry.resolveType? "A<int>.B" top = some ⟨"A"⟩ ∧
      registry.resolveType? "A.B" top = some ⟨"A.B"⟩ := by decide +kernel
  obtain ⟨hwritten, herased, hfound, hname⟩ := hfacts
  have hne := List.cons_ne_nil outer [inner]
  refine ⟨⟨hwritten, herased, hfound, hname⟩, fun herasable ↦ ?_, fun hnamed ↦ ?_⟩
  · have hsame := herasable registry top [outer, inner] hne
    rw [herased, hwritten, hfound, hname] at hsame
    exact absurd hsame (by decide)
  · have hlast := hnamed registry top [outer, inner] ⟨"A"⟩ hne (hwritten ▸ hfound)
    exact absurd hlast (by decide)

end Registry

end MemberReach
