import FFS.Cod.KeepsMeaning
import FFS.Encode.ReadBack
import FFS.Convert.Transpose
import FFS.Convert.ComparisonsEnd
import FFS.Convert.FormatOrder
import FFS.Encode.VectorEncode
import FFS.Encode.NoLeafCopy
import FFS.Encode.FixedBuffer
import FFS.Encode.VectorsInBuffer
import FFS.File.BlockChain
import FFS.File.IndexScans
import FFS.FM.ContextStore
import FFS.FM.FormatID
import FFS.FM.LookupFormat
import FFS.FM.RegisteredForm
import FFS.FM.Hash
import FFS.FM.LoadAgrees
import FFS.FM.Layout
import FFS.FM.SubformatOrder
import FFS.FM.VariantFlag
import FFS.FM.ArrayReaders
import FFS.Server.Agreement
import FFS.Server.RestartFile
import FFS.Server.Proxy
import FFS.Server.KorvoAgreement
import FFS.Server.HttpTransfer
import FFS.Convert.WideHalves
import FFS.File.UnixIO
import FFS.File.RawHeader
import FFS.Cod.ConstantCode
import FFS.Cod.ReturnCheck
import FFS.Cod.GotoCheck
import FFS.Cod.Preprocess
import FFS.Cod.Call
import FFS.Cod.TypeDescriptions
import FFS.Cod.FailedDeclarations
import FFS.Encode.Tables
import FFS.Dump.Complete
import FFS.Convert.FieldCode
import FFS.Cod.Rollback
import FFS.Tools.Sort
import FFS.Dump.XmlTemplate
import FFS.Convert.FieldSearch
import FFS.Dump.RecordsAlike
import FFS.Convert.BestMatch
import FFS.Cod.FieldTypes
import FFS.File.StreamCalls
import FFS.File.StreamContexts
import FFS.File.StreamRead
import FFS.File.StreamWritten
