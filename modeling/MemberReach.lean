import MemberReach.Main
import MemberReach.Proofs.DeclaredSymbols
import MemberReach.Proofs.Worklist
import MemberReach.Proofs.Reachability
import MemberReach.Proofs.OrderIndependence
import MemberReach.Proofs.Comments.Transparency
import MemberReach.Proofs.RegistryInvariant
import MemberReach.Proofs.Overloads
import MemberReach.Proofs.TypingLimit
import MemberReach.Proofs.LoadOrder.Answers
import MemberReach.Proofs.ProjectLoading
import MemberReach.Proofs.AnalysisRuns
import MemberReach.Proofs.LocalScopes
import MemberReach.Proofs.NestedFunctions
import MemberReach.Proofs.SimpleNames
import MemberReach.Proofs.TypingChains
import MemberReach.Proofs.RegisteredBodies
import MemberReach.Proofs.DerivedFirst
import MemberReach.Proofs.ExtensionIndex
import MemberReach.Proofs.TypeNames
import MemberReach.Proofs.TypeArguments
import MemberReach.Proofs.OutArguments
import MemberReach.Proofs.ReadsAndCalls
import MemberReach.Proofs.RestrictedClosures
import MemberReach.Proofs.OrderedReports
import MemberReach.Proofs.ReportTexts
import MemberReach.Proofs.NullableMarks
import MemberReach.Proofs.TypeKeys
import MemberReach.Proofs.ElementTypes
import MemberReach.Proofs.DocumentOrder
