import Convd.Lib.Loop
import Convd.Lib.Mem
import Convd.Lib.Runs
import Convd.Def
import Convd.ByteOrder
import Convd.Bom
import Convd.XmlHead
import Convd.XmlHeadScan
import Convd.XmlHeadBounds
import Convd.XmlHeadRound
import Convd.File
import Convd.Iconv
import Convd.Line
import Convd.ReadNext
import Convd.ConvFile
import Convd.ConvTurn
import Convd.ConvFileErrors
import Convd.ConvFileText
import Convd.ConvFileInsuff
import Convd.ConvFileUnits
import Convd.XmlFile
import Convd.Lib.Pieces
import Convd.LineCuts
import Convd.Encodings
import Convd.ConvFileChars
import Convd.Lib.Steps
import Convd.RefcObject
import Convd.SharedConv
import Convd.ConvFlush
import Convd.ConvFileResources
import Convd.Lib.Units
import Convd.XmlDecl
import Convd.XmlFileHead
import Convd.XmlUnits
import Convd.XmlMarkup
import Convd.Descriptor
import Convd.XmlText
import Convd.XmlTextHead
import Convd.XmlTextRound
import Convd.XmlFileText
import Convd.TimeUt
import Convd.ConvFileTurns
import Convd.LineBuffer
import Convd.LineBufferUse
import Convd.OutFileSize
import Convd.Create
import Convd.XmlHeadWrites
import Convd.XmlGrammar
import Convd.Cstrbuf
import Convd.CstrbufRuns
import Convd.CstrbufNul
import Convd.Lib.Strip
import Convd.SplitMultiChrs
import Convd.Lib.Occurrences
import Convd.Replace
import Convd.Compare
import Convd.FileTransfer
import Convd.Lib.Block
import Convd.Trim
import Convd.SplitChr
import Convd.Numeric
import Convd.Lib.Decimal
import Convd.Datetime
import Convd.ParseParts
import Convd.ParseTimestamp
import Convd.DatetimeRound
import Convd.TimestampText
import Convd.SplitSubstr
import Convd.Lib.Monitor
import Convd.SharedDescriptor
import Convd.ConvFileWritten
import Convd.Lib.Code
import Convd.Transcode
import Convd.XmlFileRound
import Convd.Codeconv
import Convd.CodeconvRun
import Convd.Lib.Gregorian
import Convd.LocalTime
import Convd.LocalTimeText
import Convd.DetectBom
import Convd.ConfigPath
import Convd.Readline
import Convd.TimeZone
