import Chaaya.Bitwise.Conversion
import Chaaya.Body.Source
import Chaaya.Bytecode.Abort
import Chaaya.Bytecode.Wellformed
import Chaaya.Cache.Load
import Chaaya.Cache.Roundtrip
import Chaaya.Cache.Store
import Chaaya.Comparator.Laws
import Chaaya.Equality.Bisimilar
import Chaaya.Exit
import Chaaya.Expander.Conformance
import Chaaya.Expander.Hygiene
import Chaaya.Fiber.Condvar
import Chaaya.Fiber.Delivery
import Chaaya.Fiber.Finished
import Chaaya.Fiber.Isolation
import Chaaya.Fiber.Wakeup
import Chaaya.FiniteMap.Builtin
import Chaaya.FiniteMap.DeepCopy
import Chaaya.Formatter.Preservation
import Chaaya.Fxmapping.Run
import Chaaya.Gc.Ephemeron
import Chaaya.Gc.Run
import Chaaya.Handler.Run
import Chaaya.HashCollection.Run
import Chaaya.Hashtable.Run
import Chaaya.Import.Form
import Chaaya.Input.Run
import Chaaya.Lazy.Laws
import Chaaya.ListWalk
import Chaaya.Mapping.Run
import Chaaya.Number.Comparison
import Chaaya.Number.Families
import Chaaya.Number.Flonum
import Chaaya.Number.Power
import Chaaya.Number.Radix
import Chaaya.Number.Root
import Chaaya.Number.Rounding
import Chaaya.Number.Roundtrip
import Chaaya.Number.Wide
import Chaaya.Okvs.Order
import Chaaya.Output.Run
import Chaaya.Park.Control
import Chaaya.Park.Run
import Chaaya.Position.Run
import Chaaya.Quasi.Fits
import Chaaya.RandomAccess.Refinement
import Chaaya.Reactor.Run
import Chaaya.Reader.Program
import Chaaya.Registry.Run
import Chaaya.Scalar.Folding
import Chaaya.Scalar.Run
import Chaaya.Scope.Run
import Chaaya.SharedChannel.Delivery
import Chaaya.SharedChannel.Demand
import Chaaya.SharedChannel.Promotion
import Chaaya.Srfi1.Laws
import Chaaya.Srfi1.Native
import Chaaya.Srfi1.Run
import Chaaya.Srfi132
import Chaaya.Srfi19
import Chaaya.Strings.Character
import Chaaya.Strings.Searching
import Chaaya.Strings.Splitting
import Chaaya.Transition
import Chaaya.Upvalue.Run
import Chaaya.VectorSearch
import Chaaya.Wind.Run
import Chaaya.Window
