import Pjson.Lib.Run
import Pjson.Dom.Utf8Len
import Pjson.Grammar.Syntax
import Pjson.Parser.NumberRange
import Pjson.Parser.FrontEnds
import Pjson.Parser.SaxTrace
import Pjson.Parser.EventContract
import Pjson.Parser.Contract
import Pjson.Parser.Located
import Pjson.Lib.Emit
import Pjson.Serialize.Sink
import Pjson.Serialize.FormatDouble
import Pjson.Serialize.Writer
import Pjson.Serialize.Render
import Pjson.Serialize.RoundTrip
import Pjson.Serialize.Publish
import Pjson.Dom.Order
import Pjson.Pointer.Find
import Pjson.Patch.Pointer
import Pjson.Patch.Equal
import Pjson.Patch.Cost
import Pjson.Schema.Decimal
import Pjson.Schema.Locations
import Pjson.Schema.Accounting
import Pjson.Schema.CodePoints
import Pjson.Schema.Resolution
import Pjson.Patch.Clone
import Pjson.Memory.Mutate
import Pjson.Memory.CopyExact
import Pjson.Schema.FormatLimit
import Pjson.Schema.RegexSafe
import Pjson.Schema.RegexSyntax
import Pjson.Parser.DomSafety
import Pjson.Patch.Rfc6902
import Pjson.Patch.Apply
import Pjson.Patch.Price
import Pjson.Patch.Follows
import Pjson.Patch.EqualPrice
import Pjson.Patch.ApplyExact
import Pjson.Patch.IndexErrors
import Pjson.Patch.Rfc7396
import Pjson.Patch.Merge
import Pjson.Patch.MergeExact
import Pjson.Patch.Amplification
import Pjson.Memory.Places
import Pjson.Memory.Ancestry
import Pjson.Memory.Assign
import Pjson.Memory.Arrays
import Pjson.Memory.Growth
import Pjson.Lib.AssocMap
import Pjson.Memory.Objects
import Pjson.Memory.Calls
import Pjson.Memory.Effects
