import HeaderCodec.Bytes
import HeaderCodec.Limits
import HeaderCodec.Varint
import HeaderCodec.Coder
import HeaderCodec.Frame.Encoding
import HeaderCodec.Frame.Decoding
import HeaderCodec.Codec.Setup
import HeaderCodec.Codec.Dump
import HeaderCodec.Stream.Blocking
import HeaderCodec.Stream.Asynchronous
import HeaderCodec.Stream.Endpoint
import HeaderCodec.Stream.Headers
import HeaderCodec.Stream.Provision
import HeaderCodec.Machine.Decoding
import HeaderCodec.Machine.Filling
import HeaderCodec.Machine.Indexes
import HeaderCodec.Machine.Literal
import HeaderCodec.Machine.Varint
import HeaderCodec.Pool.Pools
import HeaderCodec.Pool.Endpoints
import HeaderCodec.Pool.Sharing
import HeaderCodec.Header.Iteration
import HeaderCodec.Service
import HeaderCodec.Proofs.DumpSize
import HeaderCodec.Proofs.Header.RoundTrip
import HeaderCodec.Proofs.Header.Receive
import HeaderCodec.Proofs.Header.Blocking
import HeaderCodec.Proofs.Header.OrderedMap
import HeaderCodec.Proofs.Header.Iteration
import HeaderCodec.Proofs.Stream.Exchange
import HeaderCodec.Proofs.Stream.Provision
import HeaderCodec.Proofs.Stream.Headers
import HeaderCodec.Proofs.Extension
import HeaderCodec.Proofs.Reencoding
import HeaderCodec.Proofs.Huffman.Splitting
import HeaderCodec.Proofs.Machine.Decoding
import HeaderCodec.Proofs.Invariant
import HeaderCodec.Proofs.Pool.Sharing
import HeaderCodec.Proofs.Refusal
import HeaderCodec.Proofs.Machine.Indexes
import HeaderCodec.Proofs.Machine.Varint
import HeaderCodec.Proofs.Truncation
import HeaderCodec.Proofs.Transparency
import HeaderCodec.Proofs.Setup
import HeaderCodec.Machine.Collector
import HeaderCodec.Proofs.Machine.Collector
import HeaderCodec.Proofs.Machine.Literal
import HeaderCodec.Proofs.Machine.Filling
