import DocGraph.Mapper
import DocGraph.Proofs.Codec.Natural
import DocGraph.Proofs.Column.Naming
import DocGraph.Proofs.Column.PackedObjects
import DocGraph.Proofs.Compile.Columns
import DocGraph.Proofs.Compile.EachHop
import DocGraph.Proofs.Compile.FilteredRows
import DocGraph.Proofs.Compile.Filters
import DocGraph.Proofs.Compile.Grouped
import DocGraph.Proofs.Compile.Negation
import DocGraph.Proofs.Compile.NumberedFilters
import DocGraph.Proofs.Compile.OneGraph
import DocGraph.Proofs.Compile.OtherColumns
import DocGraph.Proofs.Compile.Prefixes
import DocGraph.Proofs.Compile.Refusals
import DocGraph.Proofs.Compile.SelfContained
import DocGraph.Proofs.Compile.VariableRules
import DocGraph.Proofs.Json.Written
import DocGraph.Proofs.Query.FieldPaths
import DocGraph.Proofs.Query.FilterReading
import DocGraph.Proofs.Query.QueryReading
import DocGraph.Proofs.Query.Reader
import DocGraph.Proofs.Results.ArrayOrder
import DocGraph.Proofs.Results.Blanks
import DocGraph.Proofs.Results.Columns
import DocGraph.Proofs.Results.PackedAlike
import DocGraph.Proofs.Results.Placed
import DocGraph.Proofs.Results.Rows
import DocGraph.Proofs.RoundTrip
import DocGraph.Proofs.Schema.Identities
import DocGraph.Proofs.Schema.Walks
import DocGraph.Proofs.Select.Parts
import DocGraph.Query.Reader
