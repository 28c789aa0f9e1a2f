import Resid.Lib.FixedWidth
import Resid.Lib.Positional
import Resid.Lib.Loops
import Resid.Bignum.Limbs
import Resid.Bignum.Arith
import Resid.Bignum.Division
import Resid.Lib.Montgomery
import Resid.Bignum.TwoWord
import Resid.Bignum.Modexp
import Resid.Lib.CheckedInt
import Resid.Lib.Decimal
import Resid.Runtime.Text
import Resid.Calendar.Helpers
import Resid.Calendar.Civil
import Resid.Duration.Span
import Resid.Duration.Format
import Resid.Duration.Parse
import Resid.Duration.RoundTrip
import Resid.Duration.IsoGrammar
import Resid.Runtime.Ints
import Resid.Runtime.Dec
import Resid.Runtime.Fixed
import Resid.Lib.Recursion
import Resid.Serial.Protocol
import Resid.Value.Generic
import Resid.Value.Encoder
import Resid.Value.Decoder
import Resid.Value.Identity
import Resid.Lib.Retract
import Resid.Serial.Instances
import Resid.Serial.Travel
import Resid.Serial.RoundTrip
import Resid.Lib.Scan
import Resid.Verify.JsonGrammar
import Resid.Verify.JsonReads
import Resid.Verify.JsonExact
import Resid.Net.World
import Resid.Http.Request
import Resid.Http.Reader
import Resid.Http.Framing
import Resid.Http.ReadRuns
import Resid.Http.FrameRuns
import Resid.Http.Skim
import Resid.Http.Segments
import Resid.Http.Paths
import Resid.Http.EventLoop
import Resid.Http.EventRuns
import Resid.Lib.Climb
import Resid.X509.Der
import Resid.X509.DerExact
import Resid.X509.Certificate
import Resid.X509.Revocation
import Resid.X509.Chain
import Resid.X509.Trust
import Resid.Lib.Sparse
import Resid.Lib.Sorting
import Resid.Lib.Ranked
import Resid.Maps.Trie
import Resid.Maps.Entries
import Resid.Maps.TrieOps
import Resid.Maps.TrieRuns
import Resid.Maps.Rebuild
import Resid.Maps.Table
import Resid.Maps.TableOps
import Resid.Maps.Order
import Resid.Maps.Listing
import Resid.Maps.MapKeys
import Resid.Reduce.KnownMap
import Resid.Lib.Fields
import Resid.Package.Lock
import Resid.Package.LockText
import Resid.Package.Pins
import Resid.Registry.Index
import Resid.Registry.Upload
import Resid.Registry.IndexText
import Resid.Registry.Writes
import Resid.Registry.Runs
import Resid.Layout.Generated
import Resid.Layout.Facts
import Resid.Layout.Offsets
import Resid.Layout.Words
import Resid.Layout.Stands
import Resid.Layout.Parser
import Resid.Layout.Serializer
import Resid.Layout.RoundTrip
import Resid.Layout.Written
import Resid.Lib.Outcome
import Resid.Cbor.Head
import Resid.Cbor.Integer
import Resid.Cbor.WellFormed
import Resid.Cbor.Utf8
import Resid.Cbor.Tree
import Resid.Cbor.Skip
import Resid.Cbor.Readers
import Resid.Cbor.Oversized
import Resid.Cbor.SkipWalk
import Resid.Cbor.Traps
import Resid.Lib.Binary64
import Resid.Lib.RoundAway
import Resid.Lib.Limbs
import Resid.Decimals.Limbs
import Resid.Decimals.Arith
import Resid.Decimals.Value
import Resid.Decimals.AddSub
import Resid.Decimals.Division
import Resid.Decimals.Text
import Resid.Lib.DoubleBits
import Resid.Lib.DecimalCut
import Resid.FloatText.Big
import Resid.FloatText.BigDiv
import Resid.FloatText.Double
import Resid.FloatText.Decimal
import Resid.Lib.PrefixCode
import Resid.H2.Huffman
import Resid.Lib.Fifo
import Resid.H2.Hpack
import Resid.H2.DynamicTable
import Resid.Calendar.Weeks
import Resid.Zone.Local
import Resid.Zone.RuleText
import Resid.FloatText.Digits
import Resid.Reduce.IntHelpers
import Resid.X509.Oid
import Resid.Labels.Decides
import Resid.Regex.Escape
import Resid.Reduce.ListText
import Resid.Reduce.StrLit
import Resid.Reduce.Specialize
import Resid.Lists.Records
import Resid.Calendar.Months
import Resid.StrIndex.Calls
import Resid.Decimals.Product
import Resid.H2.Frames
import Resid.Lib.Multiples
import Resid.Duration.Division
import Resid.Duration.Snapping
import Resid.Datetime.Fields
import Resid.Datetime.Text
import Resid.Lib.Bisect
import Resid.Datetime.LeapSeconds
import Resid.Lib.Pieces
import Resid.Runtime.StrVerbs
import Resid.Reduce.Trampoline
import Resid.Lib.Primality
import Resid.Lib.Interpolation
import Resid.Shamir.Sharing
import Resid.Lib.Cofactors
import Resid.Bignum.Inverse
import Resid.Lib.StrongPrime
import Resid.Bignum.SafePrime
import Resid.X509.CrlReads
import Resid.NumText.Radix
import Resid.NumText.WideText
import Resid.Lib.Residues
import Resid.Cggmp.Paillier
import Resid.Cggmp.Transcript
import Resid.Shamir.Secrecy
