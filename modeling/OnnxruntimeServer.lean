import OnnxruntimeServer.Lib.Nested
import OnnxruntimeServer.Lib.OrderedMap
import OnnxruntimeServer.Lib.Regex
import OnnxruntimeServer.ContextShape
import OnnxruntimeServer.TcpFraming
import OnnxruntimeServer.TcpResponse
import OnnxruntimeServer.HttpSession
import OnnxruntimeServer.Reply
import OnnxruntimeServer.HttpPipeline
import OnnxruntimeServer.Lib.Linearizable
import OnnxruntimeServer.SessionManager
import OnnxruntimeServer.SessionStore
import OnnxruntimeServer.SessionConcurrency
import OnnxruntimeServer.ListSession
import OnnxruntimeServer.ThreadPool
import OnnxruntimeServer.ThreadPoolShutdown
import OnnxruntimeServer.ThreadPoolProgress
import OnnxruntimeServer.TensorData
import OnnxruntimeServer.BatchedShape
import OnnxruntimeServer.IntegerInputs
import OnnxruntimeServer.Session
import OnnxruntimeServer.ExecutionContext
import OnnxruntimeServer.ContextBuffers
import OnnxruntimeServer.ContextRun
import OnnxruntimeServer.SessionRoutes
import OnnxruntimeServer.Manager
import OnnxruntimeServer.ExecuteTransports
import OnnxruntimeServer.ExecutionCount
import OnnxruntimeServer.TransportRuns
import OnnxruntimeServer.TcpUpload
import OnnxruntimeServer.UploadedModel
import OnnxruntimeServer.PackedOutput
import OnnxruntimeServer.TcpHeaderCheck
import OnnxruntimeServer.SessionKeyWithOption
import OnnxruntimeServer.ModelList
import OnnxruntimeServer.OptionEntries
import OnnxruntimeServer.Numerals
import OnnxruntimeServer.PrintedModels
import OnnxruntimeServer.NestedOptions
import OnnxruntimeServer.PrintedAssignments
import OnnxruntimeServer.Extensions
import OnnxruntimeServer.AccumulatedExtensions
import OnnxruntimeServer.CudaOptions
import OnnxruntimeServer.CudaEcho
import OnnxruntimeServer.SessionOptions
import OnnxruntimeServer.SessionOptionsEcho
import OnnxruntimeServer.ConfigEntries
import OnnxruntimeServer.BatchedShapeDouble
import OnnxruntimeServer.HeaderCodec
import OnnxruntimeServer.TcpConversation
import OnnxruntimeServer.TcpTermination
import OnnxruntimeServer.NestingDepth
import OnnxruntimeServer.SwaggerRouting
import OnnxruntimeServer.ForwardedIntegers
import OnnxruntimeServer.Lib.Utf8Sequences
import OnnxruntimeServer.JsonLexer
import OnnxruntimeServer.Utf8Text
import OnnxruntimeServer.JsonStrings
import OnnxruntimeServer.JsonNumbers
import OnnxruntimeServer.JsonTokens
import OnnxruntimeServer.JsonParser
import OnnxruntimeServer.JsonGrammar
import OnnxruntimeServer.JsonText
import OnnxruntimeServer.JsonRoundTrip
import OnnxruntimeServer.ReplyValues
import OnnxruntimeServer.Startup
import OnnxruntimeServer.SessionConstruction
import OnnxruntimeServer.ServerMemory
