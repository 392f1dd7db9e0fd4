import Lexing.FileTree
import Lexing.Main
import Lexing.Proofs.Grammar
import Lexing.Proofs.Segmentation
import Lexing.Proofs.Spelling
import Lexing.Proofs.Place
import Lexing.Proofs.Lines
import Lexing.Proofs.Schedule
import Lexing.Proofs.Resumption
import Lexing.Proofs.Tape
import Lexing.Proofs.LineByLine
import Lexing.Proofs.Printing
import Lexing.Proofs.Lossless
import Lexing.Proofs.IllegalBytes
import Lexing.Proofs.Decoding
import Lexing.Proofs.Verdict
import Lexing.Proofs.Stepwise
import Lexing.Proofs.Lookahead
import Lexing.Proofs.Joining
import Lexing.Proofs.Integers
import Lexing.Proofs.Progress
import Lexing.Proofs.SessionLog
import Lexing.Proofs.Strides
import Lexing.Proofs.Bounds
import Lexing.Proofs.Scanning
import Lexing.Proofs.KeywordSearch
import Lexing.Proofs.Options
import Lexing.Text.BufferCursor
import Lexing.Proofs.Indexing
import Lexing.Token.Scanner
import Lexing.Proofs.Scanning
