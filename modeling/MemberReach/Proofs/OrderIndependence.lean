import MemberReach.Proofs.Reachability
import MemberReach.Report

/-!
# The order of the worklist does not show

Two runs that take methods off the worklist in different orders visit them in unrelated orders,
and a set keeps the symbol that comes first. They still give the same closure, field by field:
each run finds exactly what the seed reaches, and every symbol that is found is the one that the
registry has for its identity. A report therefore has the same text for both.
-/

namespace MemberReach

namespace Closure

/-- Two closures that differ at most in the order in which bodies were looked up. -/
structure SameResult (a b : Closure) : Prop where
  methods : a.methods = b.methods
  properties : a.properties = b.properties
  skipped : a.skipped = b.skipped
  iterations : a.iterations = b.iterations
  bodiesClassified : a.bodiesClassified = b.bodiesClassified

/-- Under a grounded resolver the order of the worklist changes nothing but the order of the
look-ups. -/
theorem build_same_result {resolver : Resolver} {r : Registry} {seed : MethodSymbol}
    (hground : resolver.Grounded r) (hseed : r.Declares seed) (order other : WorklistOrder) :
    SameResult (build resolver order r.methodCount seed)
      (build resolver other r.methodCount seed) := by
  have hmethods : (build resolver order r.methodCount seed).methods =
      (build resolver other r.methodCount seed).methods :=
    SymbolSet.eq_of_mem_iff fun m ↦ by
      rw [mem_methods_iff hground order hseed, mem_methods_iff hground other hseed,
        mem_visited_iff hground order hseed, mem_visited_iff hground other hseed]
  have hskipped : (build resolver order r.methodCount seed).skipped =
      (build resolver other r.methodCount seed).skipped :=
    SymbolSet.eq_of_mem_iff fun m ↦
      (mem_skipped_iff hground order hseed).trans (mem_skipped_iff hground other hseed).symm
  refine ⟨hmethods, SymbolSet.eq_of_mem_iff fun p ↦ ?_, hskipped, ?_, ?_⟩
  · exact (mem_properties_iff hground order hseed).trans
      (mem_properties_iff hground other hseed).symm
  · rw [iterations_eq_size hground order hseed, iterations_eq_size hground other hseed, hmethods]
  · have horder := classified_add_skipped hground order hseed
    have hother := classified_add_skipped hground other hseed
    rw [hmethods, hskipped] at horder
    omega

/-- Closures with the same result have the same report. -/
theorem SameResult.report_eq {a b : Closure} (h : SameResult a b) (seedFile seedMethod : String) :
    Report.ofClosure a seedFile seedMethod = Report.ofClosure b seedFile seedMethod := by
  rw [Report.ofClosure, Report.ofClosure, h.methods, h.properties]

end Closure

namespace Model

open Closure

/-- The order of the worklist changes neither the closure of a method, in any field of any symbol,
nor its report, nor the text of the report, indented or compact. -/
theorem closure_order_independent (units : List SourceUnit) (external : TypeKey → Bool)
    (hidden : SymbolId → Bool) {unitId : Nat} {name : String} {seed : MethodSymbol}
    (hseed : (ofUnits units).findSeed unitId name = .ok seed) :
    SameResult ((ofUnits units).closure external hidden .fifo seed)
        ((ofUnits units).closure external hidden .lifo seed) ∧
      ∀ seedFile seedMethod,
        Report.ofClosure ((ofUnits units).closure external hidden .fifo seed) seedFile seedMethod =
            Report.ofClosure ((ofUnits units).closure external hidden .lifo seed) seedFile
              seedMethod ∧
          ∀ indented,
            (Report.ofClosure ((ofUnits units).closure external hidden .fifo seed) seedFile
                seedMethod).render indented =
              (Report.ofClosure ((ofUnits units).closure external hidden .lifo seed) seedFile
                seedMethod).render indented := by
  have hsame : SameResult ((ofUnits units).closure external hidden .fifo seed)
      ((ofUnits units).closure external hidden .lifo seed) :=
    build_same_result (resolver_grounded (ofUnits units) external hidden)
      (find_seed_declared hseed) .fifo .lifo
  refine ⟨hsame, fun seedFile seedMethod ↦ ⟨hsame.report_eq seedFile seedMethod, ?_⟩⟩
  intro indented
  rw [hsame.report_eq seedFile seedMethod]

/-- The two orders visit the methods of the small project differently and report the same. -/
theorem closure_order_independent_sample :
    (ofUnits Sample.units).findSeed 0 "M" = .ok Sample.seed ∧
      SameResult ((ofUnits Sample.units).closure (fun _ ↦ false) (fun _ ↦ false) .fifo Sample.seed)
        ((ofUnits Sample.units).closure (fun _ ↦ false) (fun _ ↦ false) .lifo Sample.seed) ∧
      (Report.ofClosure ((ofUnits Sample.units).closure (fun _ ↦ false) (fun _ ↦ false) .fifo
          Sample.seed) "A.cs" "M").render true =
        (Report.ofClosure ((ofUnits Sample.units).closure (fun _ ↦ false) (fun _ ↦ false) .lifo
          Sample.seed) "A.cs" "M").render true := by
  have hsame := closure_order_independent Sample.units (fun _ ↦ false) (fun _ ↦ false)
    Sample.seed_found
  exact ⟨Sample.seed_found, hsame.1, (hsame.2 "A.cs" "M").2 true⟩

end Model

end MemberReach
