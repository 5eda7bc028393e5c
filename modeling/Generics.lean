import Generics.Cache
import Generics.Options.Text
import Generics.Proofs.Independence
import Generics.Proofs.Inference
import Generics.Proofs.Applicability
import Generics.Proofs.PartialClosure
import Generics.Store
import Generics.Proofs.Malformed
import Generics.Proofs.Policies
import Generics.Proofs.Caching
import Generics.Proofs.Growth.Calls
import Generics.Proofs.HashConsing
import Generics.Proofs.SelfResolution
import Generics.Proofs.Balance
import Generics.Proofs.DeclarationOrder
import Generics.Proofs.GreatestFixpoint
import Generics.Proofs.Justification
import Generics.Proofs.Cutoff
import Generics.Proofs.Truncation
import Generics.Proofs.Specialisation
import Generics.Proofs.Subsumption
import Generics.Proofs.Validation
import Generics.Proofs.OwnParameters
import Generics.Proofs.Admission
import Generics.Proofs.ParameterGraph
import Generics.Proofs.Reuse
import Generics.Proofs.Composition
import Generics.Proofs.Json.Grammar
import Generics.Proofs.Json.Tokens
import Generics.Proofs.Json.Reading
import Generics.Proofs.Configuration
import Generics.Proofs.Traversal
import Generics.Proofs.GuardHistory
import Generics.Proofs.Naming
