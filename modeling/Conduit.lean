import Conduit.Batch.Compressor
import Conduit.Batch.Decompressor
import Conduit.Cipher.Feedback
import Conduit.Cipher.Session
import Conduit.Cipher.Standard
import Conduit.Compression.Line
import Conduit.Compression.Schedule
import Conduit.Deflate.Format
import Conduit.Digest.Session
import Conduit.Hub
import Conduit.Packet.Seal
import Conduit.Proofs.Batch.Tiling
import Conduit.Proofs.Bits.Recovering
import Conduit.Proofs.Bits.Rewinding
import Conduit.Proofs.Checksum.Summing
import Conduit.Proofs.Cipher.Streaming
import Conduit.Proofs.Compression.Answering
import Conduit.Proofs.Compression.Beginning
import Conduit.Proofs.Compression.Bounding
import Conduit.Proofs.Compression.Checking
import Conduit.Proofs.Compression.Cutting
import Conduit.Proofs.Compression.Flushing
import Conduit.Proofs.Compression.Native
import Conduit.Proofs.Compression.Poisoning
import Conduit.Proofs.Compression.Returning
import Conduit.Proofs.Deflate.Chaining
import Conduit.Proofs.Deflate.Tokenising
import Conduit.Proofs.Deflate.Windowing
import Conduit.Proofs.Digest.Blocks
import Conduit.Proofs.Handle.Counts
import Conduit.Proofs.Handle.Reusing
import Conduit.Proofs.Handle.Runs
import Conduit.Proofs.Handle.Slots
import Conduit.Proofs.Handle.Words
import Conduit.Proofs.Hub.Accounts
import Conduit.Proofs.Hub.Crossing
import Conduit.Proofs.Hub.Demands
import Conduit.Proofs.Hub.Isolation
import Conduit.Proofs.Huffman.Coding
import Conduit.Proofs.Huffman.Optimality
import Conduit.Proofs.Machine.Batches
import Conduit.Proofs.Machine.Compressing
import Conduit.Proofs.Machine.Merging
import Conduit.Proofs.Machine.Packets
import Conduit.Proofs.Machine.Reading
import Conduit.Proofs.Machine.Resetting
import Conduit.Proofs.Machine.Searching
import Conduit.Proofs.Machine.Writing
import Conduit.Proofs.Packet.Opening
import Conduit.Settings.Reader
