import HeaderCodec.Header.Vocabulary
import HeaderCodec.Text.Hex

/-! The codec with which an example service provisions its clients, and the header of one of its
calls. -/

namespace HeaderCodec.Service

def tenantKey : String := "x-tenant"

def traceKey : String := "x-trace-id"

def setup : Setup :=
  Header.setup.withMaxFrameSize 2048
    |>.field tenantKey ["acme", "globex", "initech"]
    |>.field "content-type" ["application/json", "application/octet-stream"]
    |>.name traceKey

def codec : Except ConfigError Codec := setup.build

def traceId (call : UInt64) : UInt64 := call * 0x9e3779b97f4a7c15

def sampleHeader (call : UInt64) : Except HeaderError Header := do
  let text := Bytes.ofText
  let (named, header) := Header.empty.setAgent (text "checkout") (text "pod-3")
  named
  let (passed, header) := header.addForwarded (text "edge") (text "10.0.0.1") (text "https")
  passed
  let header := { header with
    authorization := text ("Bearer token-" ++ Text.hex 8 call.toNat)
    contentLength := call * 64
    contentType := text "application/json"
    contentEncoding := text snappyEncoding }
  let tenant := if call % 2 = 0 then "acme" else "globex"
  let (assigned, header) := header.set (text tenantKey) (text tenant)
  assigned
  let (traced, header) := header.set (text traceKey) (text (Text.hex 16 (traceId call).toNat))
  traced
  return header

end HeaderCodec.Service
