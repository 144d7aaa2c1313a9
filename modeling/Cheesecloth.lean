import Cheesecloth.CodeLib.Checked
import Cheesecloth.CodeLib.WhileBreak
import Cheesecloth.CodeLib.QuotientDigit
import Cheesecloth.CodeLib.Bits
import Cheesecloth.CodeLib.NearestEven
import Cheesecloth.CodeLib.BinaryFormat
import Cheesecloth.CodeLib.RoundedQuotient
import Cheesecloth.CodeLib.Significand
import Cheesecloth.CodeLib.Interchange
import Cheesecloth.CodeLib.Datum
import Cheesecloth.CodeLib.Rescale
import Cheesecloth.CodeLib.IntegerPart
import Cheesecloth.CodeLib.Reciprocal
import Cheesecloth.CodeLib.Lts
import Cheesecloth.CodeLib.Pipe
import Cheesecloth.Builtins.FixConv
import Cheesecloth.Builtins.FloatConv.Double
import Cheesecloth.Builtins.FloatConv.Model
import Cheesecloth.Builtins.FloatConv.Single
import Cheesecloth.Builtins.FloatConv.Soft
import Cheesecloth.Builtins.IntDiv.Signed
import Cheesecloth.Builtins.IntDiv.Udivmoddi4
import Cheesecloth.Builtins.IntDiv.Unsigned
import Cheesecloth.Builtins.IntMul
import Cheesecloth.Builtins.SoftFloat.Arithmetic
import Cheesecloth.Builtins.SoftFloat.FpAdd
import Cheesecloth.Builtins.SoftFloat.FpCompare
import Cheesecloth.Builtins.SoftFloat.FpData
import Cheesecloth.Builtins.SoftFloat.FpDiv
import Cheesecloth.Builtins.SoftFloat.FpExtend
import Cheesecloth.Builtins.SoftFloat.FpFix
import Cheesecloth.Builtins.SoftFloat.FpLib
import Cheesecloth.Builtins.SoftFloat.FpMul
import Cheesecloth.Builtins.SoftFloat.FpReciprocal
import Cheesecloth.Builtins.SoftFloat.FpTrunc
import Cheesecloth.Builtins.Udivmodti4.Correct
import Cheesecloth.Builtins.Udivmodti4.Digits
import Cheesecloth.Builtins.Udivmodti4.Model
import Cheesecloth.CodeLib.Fairness
import Cheesecloth.CodeLib.RestoringDivision
import Cheesecloth.Proxy.Calls
import Cheesecloth.Proxy.CleanUp
import Cheesecloth.Proxy.Counters
import Cheesecloth.Proxy.Model
import Cheesecloth.Proxy.Orderly
import Cheesecloth.Proxy.Shutdown
import Cheesecloth.Proxy.Steps
import Cheesecloth.Proxy.Streams
import Cheesecloth.Proxy.Teardown
import Cheesecloth.Proxy.Transparent
