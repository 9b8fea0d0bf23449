import ImapRequest.Sequence.Text
import ImapRequest.Sequence.Token
import ImapRequest.Calendar.DateTime
import ImapRequest.Flag
import ImapRequest.Mailbox
import ImapRequest.StatusItem
import ImapRequest.Fetch.Basic
import ImapRequest.Search.Basic
import ImapRequest.Charset.TextDecoder
import ImapRequest.Cursor
import ImapRequest.Decoder.Line
import ImapRequest.Decoder.Text
import ImapRequest.Sequence.Decode
import ImapRequest.Calendar.Decode
import ImapRequest.Flag.Decode
import ImapRequest.Mailbox.Decode
import ImapRequest.StatusItem.Decode
import ImapRequest.Fetch.Decode
import ImapRequest.Search.Decode
import ImapRequest.Command.Basic
import ImapRequest.Command.Decode
import ImapRequest.Request
import ImapRequest.Session
import ImapRequest.Proofs.Decoder
import ImapRequest.Proofs.Number
import ImapRequest.Proofs.Text
import ImapRequest.Proofs.Inline
import ImapRequest.Proofs.Announcement
import ImapRequest.Proofs.Arguments
import ImapRequest.Proofs.Locality
import ImapRequest.Proofs.Framing
import ImapRequest.Proofs.Lines
import ImapRequest.Proofs.Discarding
import ImapRequest.Proofs.AtOnce
import ImapRequest.Proofs.Passage
import ImapRequest.Proofs.Oversized
import ImapRequest.Proofs.Alike
import ImapRequest.Proofs.Asking
import ImapRequest.Proofs.Written.Basic
import ImapRequest.Proofs.Written.Strings
import ImapRequest.Proofs.Written.Sets
import ImapRequest.Proofs.Written.Dates
import ImapRequest.Proofs.Written.Items
import ImapRequest.Proofs.Written.Sections
import ImapRequest.Proofs.Written.Fetch
import ImapRequest.Proofs.Written.Search
import ImapRequest.Proofs.Written.Commands
import ImapRequest.Proofs.Lenient.Basic
import ImapRequest.Proofs.Lenient.Decoders
import ImapRequest.Proofs.Lenient.Requests
import ImapRequest.Proofs.Yields
import ImapRequest.Proofs.Conversion
import ImapRequest.Proofs.Pieces
import ImapRequest.Proofs.WellFormed
import ImapRequest.Proofs.Cut.Basic
import ImapRequest.Proofs.Cut.Requests
import ImapRequest.Proofs.Grammar.Basic
import ImapRequest.Proofs.Grammar.Values
import ImapRequest.Proofs.Grammar.Search
import ImapRequest.Proofs.Grammar.Criteria
import ImapRequest.Proofs.Grammar.Nesting
import ImapRequest.Proofs.Coverage
import ImapRequest.Proofs.Components
import ImapRequest.Proofs.Compaction
import ImapRequest.Proofs.Grammar.Sets
import ImapRequest.Proofs.Grammar.Printing
import ImapRequest.Proofs.Grammar.Flags
import ImapRequest.Proofs.Grammar.Sections
import ImapRequest.Proofs.Grammar.Fetch
import ImapRequest.Proofs.Grammar.Strings
import ImapRequest.Proofs.Envelope
import ImapRequest.Proofs.Calendar
import ImapRequest.Proofs.Grammar.Dates
import ImapRequest.Proofs.Grammar.DateTimes
import ImapRequest.Proofs.Grammar.Numbers
import ImapRequest.Proofs.Repetition
import ImapRequest.Proofs.Progress
