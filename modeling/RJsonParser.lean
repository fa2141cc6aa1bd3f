import RJsonParser.Properties.Bounds
import RJsonParser.Properties.ByteOrderMark
import RJsonParser.Properties.DecodeRun
import RJsonParser.Properties.Fragments
import RJsonParser.Properties.Indentation
import RJsonParser.Properties.NumberValues
import RJsonParser.Properties.Overflow
import RJsonParser.Properties.Positions
import RJsonParser.Properties.Progress
import RJsonParser.Properties.Reading
import RJsonParser.Properties.Rejection
import RJsonParser.Properties.Replay
import RJsonParser.Properties.Reset
import RJsonParser.Properties.StringValues
import RJsonParser.Properties.SymbolTable
import RJsonParser.Properties.WriterText
