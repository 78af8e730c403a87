import FiduciaPayments.Lib.Base64
import FiduciaPayments.Lib.Crc32
import FiduciaPayments.Lib.Hex
import FiduciaPayments.Lib.Utf8

/-!
# The crates the verifiers call

The crate under `src/` does no cryptography, JSON or URL parsing of its own.
What it calls is collected in `Crates`; a theorem about the verifiers holds
for every value of it, and states by name the documented behaviour it rests
on (`HmacAcceptsEveryKey` and the other predicates below). `recorded` is a
value of it that behaves this way on a few recorded deliveries.
-/

namespace Fiducia

/-- Rust's `str`: a sequence of Unicode scalar values. -/
abbrev Str := List Char

/-- Rust's `[u8]`. -/
abbrev Bytes := List UInt8

/-- `str::as_bytes`. -/
def asBytes (s : Str) : Bytes := Lib.Utf8.utf8 s

/-- The output of HMAC-SHA256, a `GenericArray<u8, U32>`. -/
abbrev Digest := { bs : Bytes // bs.length = 32 }

/-- A `serde_json::Value`. An object's keys are distinct. -/
inductive Value where
  | null
  | bool (b : Bool)
  | number (literal : Str)
  | string (s : Str)
  | array (items : List Value)
  | object (members : List (Str × Value))

/-- `Value::get` with a string index: the member of an object. -/
def Value.get : Value → Str → Option Value
  | .object members, key => members.lookup key
  | _, _ => none

/-- `Value::as_str`. -/
def Value.asStr : Value → Option Str
  | .string s => some s
  | _ => none

/-- What `cert_url_is_paypal` reads of a parsed `url::Url`. -/
structure Url where
  scheme : Str
  username : Str
  password : Option Str
  hostStr : Option Str

/-- The functions of `hmac`, `sha2`, `hex`, `subtle`, `serde_json`, `base64`,
`rsa`, `x509-cert`, `spki`, `crc32fast` and `url` that the verifiers call. An
error that reaches a message of the verifiers is its `Display` text. -/
structure Crates where
  /-- Whether `HmacSha256::new_from_slice` takes the key. -/
  hmacTakesKey : Bytes → Bool
  /-- HMAC-SHA256 of a message under a key. -/
  hmacSha256 : Bytes → Bytes → Digest
  /-- `hex::decode`. -/
  hexDecode : Str → Option Bytes
  /-- `<[u8] as ConstantTimeEq>::ct_eq`. -/
  ctEq : Bytes → Bytes → Bool
  /-- `serde_json::from_slice`. -/
  fromSlice : Bytes → Except Str Value
  /-- `general_purpose::STANDARD.decode`. -/
  base64Decode : Str → Option Bytes
  /-- `rsa::pkcs1v15::Signature`. -/
  Signature : Type
  /-- `Signature::try_from`. -/
  signatureTryFrom : Bytes → Option Signature
  /-- `x509_cert::Certificate`. -/
  Certificate : Type
  /-- `Certificate::from_pem`. -/
  certificateFromPem : Bytes → Except Str Certificate
  /-- `to_der` of the certificate's subject public key info. -/
  spkiToDer : Certificate → Except Str Bytes
  /-- `rsa::RsaPublicKey`. -/
  RsaPublicKey : Type
  /-- `RsaPublicKey::from_public_key_der`. -/
  fromPublicKeyDer : Bytes → Except Str RsaPublicKey
  /-- `VerifyingKey::<Sha256>::verify`. -/
  rsaVerify : RsaPublicKey → Bytes → Signature → Bool
  /-- `crc32fast::hash`. -/
  crc32 : Bytes → UInt32
  /-- `url::Url::parse`. -/
  urlParse : Str → Option Url

namespace Crates

variable (C : Crates)

/-- HMAC takes keys of every length. -/
def HmacAcceptsEveryKey : Prop := ∀ key, C.hmacTakesKey key = true

/-- `hex::decode` takes two digits a byte, of either case and mixed. -/
def HexDecodesSpellings : Prop := ∀ s bs, C.hexDecode s = some bs ↔ Lib.Hex.Spells s bs

/-- `hex::decode` undoes `hex::encode`, in lower and in upper case. -/
def HexUndoesEncode : Prop := ∀ bs, C.hexDecode (Lib.Hex.encode bs) = some bs ∧
  C.hexDecode ((Lib.Hex.encode bs).map Char.toUpper) = some bs

/-- `ct_eq` is equality, whatever time it takes. -/
def CtEqIsEquality : Prop := ∀ a b, C.ctEq a b = true ↔ a = b

/-- Under one key, a signature is accepted for at most one message. -/
def RsaOneMessage : Prop :=
  ∀ key m₁ m₂ sig, C.rsaVerify key m₁ sig = true → C.rsaVerify key m₂ sig = true → m₁ = m₂

/-- `crc32fast::hash` is the CRC-32 of IEEE 802.3. -/
def Crc32IsIeee : Prop := ∀ bs, C.crc32 bs = Lib.Crc32.hash bs

end Crates

/-! ## Recorded deliveries -/

namespace Recorded

def secret : Str := "whsec_test_secret_key_value".toList

def stripeBody : Bytes :=
  asBytes "\x7b\"id\":\"evt_123\",\"type\":\"invoice.paid\",\"data\":\x7b\x7d\x7d".toList

/-- The HMAC-SHA256 of `stripeBody`, signed at 1680000000 with `secret`. -/
def stripeMac : Digest :=
  ⟨[0x23, 0x9c, 0x4e, 0x25, 0x51, 0xe9, 0x84, 0x3a, 0x4f, 0xbd, 0x0f, 0xd1, 0x95, 0x41, 0x81, 0x0b,
    0xa9, 0x39, 0xa6, 0x80, 0xb8, 0xf1, 0xef, 0x0b, 0xa0, 0x17, 0x47, 0xb5, 0xc6, 0x4e, 0xf6, 0x42],
    rfl⟩

def stripeHeader : Str :=
  "t=1680000000,v1=239c4e2551e9843a4fbd0fd19541810ba939a680b8f1ef0ba01747b5c64ef642".toList

/-- A header with the signature of `stripeHeader`, written by another sender. -/
def redeliveredHeader : Str :=
  " t = +1680000000 ,v0=,v1=239c4e2551e9843a4fbd0fd19541810ba939a680b8f1ef0ba01747b5c64ef642".toList

/-- The value of an unrecorded HMAC. -/
def otherMac : Digest := ⟨List.replicate 32 0, rfl⟩

def deniedBody : Bytes :=
  asBytes "\x7b\"id\":\"WH-lqat\",\"event_type\":\"PAYMENT.CAPTURE.DENIED\"\x7d".toList

/-- A body with the CRC-32 of `deniedBody`. -/
def completedBody : Bytes :=
  asBytes "\x7b\"id\":\"WH-81u23\",\"event_type\":\"PAYMENT.CAPTURE.COMPLETED\"\x7d".toList

def paypalMessage : Bytes :=
  asBytes "transmission-formal|2026-09-08T12:00:00Z|WH-FORMAL|2936695505".toList

/-- The RSA signature of `paypalMessage` under the key of `certPem`. -/
def paypalSignature : Bytes :=
  [0xb9, 0x4a, 0xd6, 0xa7, 0x6e, 0x02, 0x1a, 0x12, 0x7a, 0x01, 0xdb, 0x11, 0x35, 0x00, 0x26, 0x32,
   0x88, 0xda, 0x15, 0x14, 0x7b, 0x9e, 0xbe, 0xff, 0x0d, 0x75, 0x6f, 0xe2, 0x5d, 0xf4, 0x3e, 0x7c,
   0x45, 0xe0, 0xcc, 0x21, 0x2b, 0xf6, 0x62, 0xfb, 0x16, 0x7b, 0xc6, 0xcc, 0x6e, 0x6c, 0x35, 0x9b,
   0xb5, 0xf9, 0xf0, 0x52, 0x12, 0x26, 0x0f, 0xd9, 0x65, 0xa2, 0x64, 0x56, 0xaa, 0xe6, 0x44, 0xad,
   0xde, 0x95, 0xb4, 0x9e, 0xaa, 0x37, 0xec, 0xba, 0x0b, 0xe8, 0x9f, 0x24, 0xce, 0x36, 0x70, 0x4a,
   0xc6, 0xe6, 0xce, 0xdd, 0x74, 0x0d, 0x56, 0xd4, 0xd9, 0x43, 0xfc, 0x3e, 0x2c, 0x20, 0x1b, 0x15,
   0xa5, 0xc5, 0xed, 0x8c, 0x67, 0x00, 0xb1, 0x86, 0xf0, 0x64, 0xed, 0x0d, 0xb8, 0xe0, 0x7d, 0x7f,
   0xf3, 0xc0, 0x8e, 0x1c, 0x92, 0xdf, 0xa1, 0x20, 0xc6, 0xea, 0x2f, 0xad, 0x4b, 0xcc, 0x9f, 0xe8,
   0xf9, 0x9f, 0x5d, 0x8a, 0x10, 0x87, 0xbb, 0x17, 0x7a, 0x14, 0x66, 0x42, 0x41, 0x69, 0x1c, 0x3d,
   0xb1, 0x77, 0x8f, 0x34, 0x31, 0x19, 0x79, 0xcb, 0xe1, 0x76, 0x63, 0x55, 0x60, 0x72, 0xb5, 0xaf,
   0x53, 0x69, 0xc2, 0xd0, 0xa0, 0x6c, 0x18, 0x9a, 0x0d, 0x46, 0xfc, 0xe6, 0x8c, 0xab, 0x40, 0xfd,
   0xbc, 0xa6, 0xfd, 0xde, 0x11, 0x24, 0x91, 0x23, 0x1b, 0x39, 0x34, 0x27, 0xb0, 0x3f, 0x85, 0x6e,
   0xe8, 0x01, 0xf0, 0x56, 0x3b, 0xd2, 0xc1, 0xe9, 0xf7, 0x58, 0xf3, 0x6f, 0x34, 0x5e, 0x22, 0x76,
   0xa2, 0xbf, 0x07, 0xa6, 0x4c, 0x10, 0x3a, 0x6e, 0xb9, 0x7e, 0xb3, 0xb3, 0xff, 0x0a, 0x20, 0x91,
   0x06, 0x65, 0xfb, 0x17, 0x90, 0x68, 0x7c, 0x96, 0xab, 0x80, 0x20, 0x0d, 0xbf, 0x09, 0x47, 0x75,
   0xfb, 0x6e, 0x5a, 0xa6, 0xa5, 0x15, 0x24, 0x6b, 0x8a, 0xf4, 0xa6, 0x15, 0xda, 0xee, 0x31, 0x46]

def certPem : Str :=
  List.flatMap (fun line : String => line.toList ++ ['\n'])
    ["-----BEGIN CERTIFICATE-----",
     "MIICqDCCAZACCQCzCXrA2ZNy8TANBgkqhkiG9w0BAQsFADAWMRQwEgYDVQQDDAtw",
     "YXlwYWwtdGVzdDAeFw0yNjA3MjAwMTEzMDBaFw0zNjA3MTcwMTEzMDBaMBYxFDAS",
     "BgNVBAMMC3BheXBhbC10ZXN0MIIBIjANBgkqhkiG9w0BAQEFAAOCAQ8AMIIBCgKC",
     "AQEAxacEEVSkPCDCMvab2SlxsfUHqkG82UrJawM4Ewb7BDvXII9YUrVJnRA3xJXo",
     "sPJ2ZgOhIRUmR5g7zNxDuNKg6o06u16yqPxNjFw30VqgDapiFy4XMh72FspFQXKk",
     "dGuf9Bs+ETJURMclOVJOY/KMD+7J5/OyQfO6qqzRFv7CxwVLwUFMITM+u1SQL7ua",
     "W2KD2urRfA0mbPAkaN23zRg5s8zcmjszZjrIJqoOdgzOAJuL7uY6AVBYIJ+xfpEt",
     "1vbyNutJPFzLoOvHozO8kUXvDpuqL2a1ayzI8tN0HkkxmWlpLY6DoiT9iQ+EV5Kj",
     "66e5T6mp3NBhTXjA/LeMDk6YNQIDAQABMA0GCSqGSIb3DQEBCwUAA4IBAQCSFiZi",
     "tneEXuRz+HaObebDliTzZlBvJV2ATf6r1hFUEU2qZoqwz4r7+MolbtzDLzpiYkhy",
     "ip5s77HEsFYPNWxwlxYCvmprW7nIyVl6dbhZyv/iBpy2wGOz1YnvyBJA7rqrQwve",
     "p12IdIB+yA7DrUfXJF6Z79z2wo6IP1mr9juD2sA5OEavR/oyaCGXVNaF9OoJqiC7",
     "fQ4wk0w6AUSsTcnu/j73ETY5/jcGke2Pi5I7s052zGFZf2FQyNVU9x3IKOCoc2d2",
     "ww07k/oOif6ySm1Fm0IzKalU+e9nWnw4v5TBTLmsZuLu2bjH2cpHax/UAAC/47YI",
     "FtrvbpGmdMLmrXk5",
     "-----END CERTIFICATE-----"]

def certUrl : Str := "https://api.paypal.com/v1/notifications/certs/formal.pem".toList

/-- The three recorded bodies as JSON. -/
def json (body : Bytes) : Except Str Value :=
  if body = stripeBody then
    .ok (.object [("id".toList, .string "evt_123".toList),
      ("type".toList, .string "invoice.paid".toList), ("data".toList, .object [])])
  else if body = deniedBody then
    .ok (.object [("id".toList, .string "WH-lqat".toList),
      ("event_type".toList, .string "PAYMENT.CAPTURE.DENIED".toList)])
  else if body = completedBody then
    .ok (.object [("id".toList, .string "WH-81u23".toList),
      ("event_type".toList, .string "PAYMENT.CAPTURE.COMPLETED".toList)])
  else .error "expected value at line 1 column 1".toList

end Recorded

open Recorded in
/-- The crates on the recorded deliveries, with one message and its RSA
signature. -/
def recordedWith (message signature : Bytes) : Crates where
  hmacTakesKey _ := true
  hmacSha256 key input :=
    if key = asBytes secret ∧ input = asBytes "1680000000.".toList ++ stripeBody then stripeMac
    else otherMac
  hexDecode := Lib.Hex.decode
  ctEq a b := a = b
  fromSlice := json
  base64Decode := Lib.Base64.decode
  Signature := Bytes
  signatureTryFrom bytes := some bytes
  Certificate := Unit
  certificateFromPem pem := if pem = asBytes certPem then .ok () else .error "invalid PEM".toList
  spkiToDer _ := .ok []
  RsaPublicKey := Unit
  fromPublicKeyDer _ := .ok ()
  rsaVerify _ signed sig := sig = signature ∧ signed = message
  crc32 := Lib.Crc32.hash
  urlParse url :=
    if url = certUrl then
      some { scheme := "https".toList, username := [], password := none,
             hostStr := some "api.paypal.com".toList }
    else none

open Recorded in
/-- The crates on the recorded deliveries. -/
abbrev recorded : Crates := recordedWith paypalMessage paypalSignature

namespace Recorded

theorem hmacAcceptsEveryKey : recorded.HmacAcceptsEveryKey := fun _ => rfl

theorem hexDecodesSpellings : recorded.HexDecodesSpellings := fun s bs =>
  Lib.Hex.decode_eq_some_iff s bs

theorem hexUndoesEncode : recorded.HexUndoesEncode := fun bs =>
  ⟨(hexDecodesSpellings _ _).mpr (Lib.Hex.spells_encode bs),
    (hexDecodesSpellings _ _).mpr (Lib.Hex.spells_upper bs)⟩

theorem ctEqIsEquality : recorded.CtEqIsEquality := fun _ _ => decide_eq_true_iff

section
variable {message signature : Bytes}

theorem crc32IsIeee : (recordedWith message signature).Crc32IsIeee := fun _ => rfl

theorem rsaVerify_iff {signed sig : Bytes} :
    (recordedWith message signature).rsaVerify () signed sig = true ↔
      sig = signature ∧ signed = message :=
  decide_eq_true_iff

theorem rsaOneMessage : (recordedWith message signature).RsaOneMessage := fun _ _ _ _ h₁ h₂ =>
  (rsaVerify_iff.mp h₁).2.trans (rsaVerify_iff.mp h₂).2.symm

theorem certificateFromPem_eq_ok {pem : Bytes} (h : pem = asBytes certPem) :
    (recordedWith message signature).certificateFromPem pem = .ok () := by
  simp only [recordedWith, if_pos h]

end

end Recorded

end Fiducia
