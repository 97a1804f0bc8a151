import RouteContract.Bindings.Module
import RouteContract.Document.OpenApi
import RouteContract.Endpoint.Serving
import RouteContract.Json.Reader
import RouteContract.Json.Shape
import RouteContract.Proofs.Bindings.Arrays
import RouteContract.Proofs.Bindings.Comments
import RouteContract.Proofs.Bindings.Declared
import RouteContract.Proofs.Bindings.Reading
import RouteContract.Proofs.Bindings.Render
import RouteContract.Proofs.Decimal.Digits
import RouteContract.Proofs.Decimal.Exact
import RouteContract.Proofs.Decimal.Numeral
import RouteContract.Proofs.Document.Accepted
import RouteContract.Proofs.Document.Admits
import RouteContract.Proofs.Document.Build
import RouteContract.Proofs.Document.Compile
import RouteContract.Proofs.Document.Nullable
import RouteContract.Proofs.Document.Order
import RouteContract.Proofs.Document.Overrides
import RouteContract.Proofs.Document.References
import RouteContract.Proofs.Document.Routes
import RouteContract.Proofs.Document.Sent
import RouteContract.Proofs.Document.Siblings
import RouteContract.Proofs.Endpoint.Contract
import RouteContract.Proofs.Endpoint.Sealed
import RouteContract.Proofs.Entries
import RouteContract.Proofs.Json.Alike
import RouteContract.Proofs.Json.Literals
import RouteContract.Proofs.Route.Calls
import RouteContract.Proofs.Route.Documented
import RouteContract.Proofs.Route.Hosted
import RouteContract.Proofs.Route.Hosting
import RouteContract.Proofs.Route.Language
import RouteContract.Proofs.Route.Mounting
import RouteContract.Proofs.Route.Pattern
import RouteContract.Proofs.Route.Plan
import RouteContract.Proofs.Route.Reading
import RouteContract.Proofs.Route.Reconstruction
import RouteContract.Proofs.Route.Regrouping
import RouteContract.Proofs.Route.Resolution
import RouteContract.Proofs.Route.RouteTable
import RouteContract.Proofs.Route.Segments
import RouteContract.Proofs.Route.Source
import RouteContract.Proofs.Schema.Cast
import RouteContract.Proofs.Schema.Discriminator
import RouteContract.Proofs.Schema.Guarded
import RouteContract.Proofs.Schema.OffNull
import RouteContract.Proofs.Schema.Reach
import RouteContract.Proofs.Schema.Relaxed
import RouteContract.Proofs.Text.Runs
import RouteContract.Proofs.Validation.Budget
import RouteContract.Proofs.Validation.Carried
import RouteContract.Proofs.Validation.Check
import RouteContract.Proofs.Validation.Composition
import RouteContract.Proofs.Validation.Conformance
import RouteContract.Proofs.Validation.Dispatch
import RouteContract.Proofs.Validation.Ends
import RouteContract.Proofs.Validation.Grouping
import RouteContract.Proofs.Validation.Located
import RouteContract.Proofs.Validation.NullBlind
import RouteContract.Proofs.Validation.Paths
import RouteContract.Proofs.Validation.Places
import RouteContract.Proofs.Validation.Recording
import RouteContract.Proofs.Validation.Refinement
import RouteContract.Proofs.Validation.Relaxation
import RouteContract.Proofs.Validation.Report
import RouteContract.Proofs.Validation.RoundTrip
import RouteContract.Proofs.Validation.Rules
import RouteContract.Proofs.Validation.Settled
import RouteContract.Route.Router
import RouteContract.Schema.Cast
import RouteContract.Validation.Recording
