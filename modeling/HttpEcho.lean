import HttpEcho.Base64
import HttpEcho.CommandLine.Flag
import HttpEcho.CommandLine.Help
import HttpEcho.CommandLine.Invocation
import HttpEcho.CommandLine.Reading
import HttpEcho.CommandLine.UsageError
import HttpEcho.CommandLine.Word
import HttpEcho.Files
import HttpEcho.Http.Body
import HttpEcho.Http.Echo
import HttpEcho.Http.Header
import HttpEcho.Http.Router
import HttpEcho.Http.Service
import HttpEcho.Http.Target
import HttpEcho.Http.Timeline
import HttpEcho.Http.Wire.Date
import HttpEcho.Http.Wire.Framing
import HttpEcho.Http.Wire.Head
import HttpEcho.Http.Wire.Intake
import HttpEcho.Http.Wire.Message
import HttpEcho.Http.Wire.Session
import HttpEcho.Json.Denotation
import HttpEcho.Json.Nesting
import HttpEcho.Json.Normalize
import HttpEcho.Json.Numeral
import HttpEcho.Json.Reader
import HttpEcho.Json.Teardown
import HttpEcho.Json.Token
import HttpEcho.Json.Tree
import HttpEcho.Json.Value
import HttpEcho.Json.Writer
import HttpEcho.Listen.Address
import HttpEcho.Listen.Bind
import HttpEcho.Listen.Host
import HttpEcho.Listen.Ip
import HttpEcho.Log.Event
import HttpEcho.Log.Filter
import HttpEcho.Main
import HttpEcho.Number.Binary64
import HttpEcho.Number.Shortest
import HttpEcho.Number.Unsigned
import HttpEcho.Program
import HttpEcho.Proofs.Base64
import HttpEcho.Proofs.Base64.Format
import HttpEcho.Proofs.CommandLine.Arrangement
import HttpEcho.Proofs.CommandLine.Repetition
import HttpEcho.Proofs.CommandLine.Spelling
import HttpEcho.Proofs.CommandLine.Values
import HttpEcho.Proofs.Http.Body
import HttpEcho.Proofs.Http.Budget
import HttpEcho.Proofs.Http.Case
import HttpEcho.Proofs.Http.Connection
import HttpEcho.Proofs.Http.Draining
import HttpEcho.Proofs.Http.Dump
import HttpEcho.Proofs.Http.Exchange
import HttpEcho.Proofs.Http.Grouping
import HttpEcho.Proofs.Http.PlainText
import HttpEcho.Proofs.Http.Router
import HttpEcho.Proofs.Http.Timeline
import HttpEcho.Proofs.Json.Canonical
import HttpEcho.Proofs.Json.Compact
import HttpEcho.Proofs.Json.Completeness
import HttpEcho.Proofs.Json.Conversion
import HttpEcho.Proofs.Json.Embedding
import HttpEcho.Proofs.Json.Encoding
import HttpEcho.Proofs.Json.Grammar
import HttpEcho.Proofs.Json.Integers
import HttpEcho.Proofs.Json.Lexemes
import HttpEcho.Proofs.Json.Magnitude
import HttpEcho.Proofs.Json.Meaning
import HttpEcho.Proofs.Json.Nesting
import HttpEcho.Proofs.Json.NumberText
import HttpEcho.Proofs.Json.Numbers
import HttpEcho.Proofs.Json.Numerals
import HttpEcho.Proofs.Json.Objects
import HttpEcho.Proofs.Json.Presentation
import HttpEcho.Proofs.Json.RoundTrip
import HttpEcho.Proofs.Json.Shape
import HttpEcho.Proofs.Json.Soundness
import HttpEcho.Proofs.Json.Structure
import HttpEcho.Proofs.Json.Teardown
import HttpEcho.Proofs.Listen.Address
import HttpEcho.Proofs.Listen.Bind
import HttpEcho.Proofs.Number.Decimal
import HttpEcho.Proofs.Number.Error
import HttpEcho.Proofs.Number.Rounding
import HttpEcho.Proofs.Number.Shortest
import HttpEcho.Proofs.Number.Unsigned
import HttpEcho.Proofs.Settings.Document
import HttpEcho.Proofs.Settings.Resolution
import HttpEcho.Proofs.Steps
import HttpEcho.Proofs.StopSignal
import HttpEcho.Proofs.Text.Blank
import HttpEcho.Proofs.Text.Order
import HttpEcho.Proofs.Text.Utf8
import HttpEcho.Proofs.Text.WellFormed
import HttpEcho.Proofs.Toml.Keys
import HttpEcho.Settings.Basic
import HttpEcho.Settings.Document
import HttpEcho.Settings.Load
import HttpEcho.Settings.Validation
import HttpEcho.StopSignal
import HttpEcho.SystemError
import HttpEcho.Text.Blank
import HttpEcho.Text.Buffer
import HttpEcho.Text.Duration
import HttpEcho.Text.Hidden
import HttpEcho.Text.Plain
import HttpEcho.Text.Quoted
import HttpEcho.Text.Reader
import HttpEcho.Text.Utf8
import HttpEcho.Toml.Document
import HttpEcho.Toml.Lexeme
import HttpEcho.Toml.Scalar
import HttpEcho.Toml.Table
import HttpEcho.Toml.Value
import HttpEcho.Transform
