import Mailo.Proto.Pop3.Removal
import Mailo.Proto.Pop3.Fetching
import Mailo.Proto.Smtp.Delivery
import Mailo.Engine.Schedule.Stopped
import Mailo.Engine.Schedule.Waking
import Mailo.Engine.Schedule.Orderly
import Mailo.Pim.VCard.Written
import Mailo.Engine.Reach
import Mailo.Proto.Imap.Deleting
import Mailo.Proto.Imap.Renumbered
import Mailo.Proto.Imap.Answered
import Mailo.Proto.Imap.Copied
import Mailo.Runtime.Batches
import Mailo.Engine.InFlight
import Mailo.Engine.Sync.HeldThrough
import Mailo.Core.Arrivals
import Mailo.Runtime.Jmap.Destroying
import Mailo.Secrets.Spending
import Mailo.Core.Delivered
import Mailo.Engine.Sync.Walks
import Mailo.Runtime.Jmap.CatchingUp
import Mailo.Store.Blob.Taken
import Mailo.Runtime.Carddav.Kept
import Mailo.Proto.Sieve.Wire
import Mailo.Proto.Mutf7RoundTrip
import Mailo.Proto.Smtp.Body
import Mailo.Proto.Pop3.Served
import Mailo.Proto.Sieve.Whole
import Mailo.Store.Junk
import Mailo.Folders.Kept
import Mailo.Folders.TakenBack
import Mailo.Proto.Imap.Found
import Mailo.Proto.Search.Commanded
import Mailo.Domain.Reply
import Mailo.Editor.Flowed
import Mailo.Logic.Dated
import Mailo.Mime.Stamp
import Mailo.Engine.Copies
import Mailo.Domain.Tokens
import Mailo.Domain.Autocrypt
import Mailo.Runtime.Identity
import Mailo.Crypto.Chain
import Mailo.Library.PrefixRange
import Mailo.Proto.Jmap.Push
import Mailo.Store.Prefix
import Mailo.Logic.UndoStack
import Mailo.Reader.Linkify
