/-
Code that every generated client needs and no document changes: reading and
writing JSON, and turning a response into a result. It speaks of requests and
responses without naming an HTTP library.
-/

import ElmClient.Elm.Declaration
import ElmClient.Text.Edit

namespace ElmClient.Elm

namespace Support

def function (name : String) (doc : Option String) (lines : List String) : Declaration :=
  Declaration.value name doc (Text.block lines)

def customType (name : String) (doc : Option String) (lines : List String) : Declaration :=
  Declaration.customType name doc (Text.block lines)

def json : List Declaration :=
  [customType "Nullable" (some "A value that may be explicitly `null`, as opposed to absent")
      ["type Nullable value",
        "    = Null",
        "    | Present value"],
    function "nullableToMaybe" none
      ["nullableToMaybe : Nullable value -> Maybe value",
        "nullableToMaybe nullable =",
        "    case nullable of",
        "        Null ->",
        "            Nothing",
        "",
        "        Present present ->",
        "            Just present"],
    function "decodeNullable" none
      ["decodeNullable : Json.Decode.Decoder value -> Json.Decode.Decoder (Nullable value)",
        "decodeNullable decoder =",
        "    Json.Decode.oneOf",
        "        [ Json.Decode.map Present decoder",
        "        , Json.Decode.null Null",
        "        ]"],
    function "encodeNullable" none
      ["encodeNullable : (value -> Json.Encode.Value) -> Nullable value -> Json.Encode.Value",
        "encodeNullable encoder nullable =",
        "    case nullable of",
        "        Null ->",
        "            Json.Encode.null",
        "",
        "        Present present ->",
        "            encoder present"],
    function "jsonDecodeAndMap"
      (some "Apply the next field decoder in a record decoding pipeline")
      ["jsonDecodeAndMap : Json.Decode.Decoder a -> Json.Decode.Decoder (a -> b) -> "
          ++ "Json.Decode.Decoder b",
        "jsonDecodeAndMap =",
        "    Json.Decode.map2 (|>)"],
    function "decodeOptionalField"
      (some
        "Decode a field that may be missing. A field that is present but malformed still fails.")
      ["decodeOptionalField : String -> Json.Decode.Decoder a -> Json.Decode.Decoder (Maybe a)",
        "decodeOptionalField key fieldDecoder =",
        "    Json.Decode.value",
        "        |> Json.Decode.andThen",
        "            (\\json ->",
        "                case Json.Decode.decodeValue "
          ++ "(Json.Decode.field key Json.Decode.value) json of",
        "                    Ok _ ->",
        "                        Json.Decode.map Just (Json.Decode.field key fieldDecoder)",
        "",
        "                    Err _ ->",
        "                        Json.Decode.succeed Nothing",
        "            )"],
    function "decodeEnum" none
      ["decodeEnum : String -> (String -> Maybe a) -> Json.Decode.Decoder a",
        "decodeEnum typeName fromString =",
        "    Json.Decode.string",
        "        |> Json.Decode.andThen",
        "            (\\raw ->",
        "                case fromString raw of",
        "                    Just decoded ->",
        "                        Json.Decode.succeed decoded",
        "",
        "                    Nothing ->",
        "                        Json.Decode.fail "
          ++ "(\"Unknown \" ++ typeName ++ \" value: \" ++ raw)",
        "            )"]]

/-- From a request to its result, on either HTTP library. -/
def response : List Declaration :=
  [function "Metadata" none
      ["type alias Metadata =",
        "    \x7b url : String",
        "    , statusCode : Int",
        "    , statusText : String",
        "    , headers : Dict.Dict String String",
        "    \x7d"],
    customType "Error"
      (some
        ("Why a request failed. `KnownBadStatus` carries an error body the API documents for "
          ++ "that status."))
      ["type Error err",
        "    = BadUrl String",
        "    | Timeout",
        "    | NetworkError",
        "    | KnownBadStatus Int err",
        "    | UnknownBadStatus Metadata String",
        "    | BadErrorBody Metadata String String",
        "    | BadBody Metadata String String"],
    customType "Body" none
      ["type Body",
        "    = EmptyBody",
        "    | JsonBody Json.Encode.Value",
        "    | StringBody String String",
        "    | BytesBody String Bytes.Bytes"],
    function "ErrorDecoders"
      (some "Error body decoders by status code, status range (`4XX`) or `default`")
      ["type alias ErrorDecoders err =",
        "    Dict.Dict String (String -> Result String err)"],
    customType "Expect" none
      ["type Expect err success",
        "    = ExpectJson (ErrorDecoders err) (Json.Decode.Decoder success)",
        "    | ExpectString (ErrorDecoders err) (String -> success)",
        "    | ExpectBytes (ErrorDecoders err) (Bytes.Bytes -> success)",
        "    | ExpectWhatever (ErrorDecoders err) success"],
    function "Wire" (some "A request described independently of the HTTP library that sends it")
      ["type alias Wire err success =",
        "    \x7b method : String",
        "    , url : String",
        "    , headers : List ( String, String )",
        "    , body : Body",
        "    , expect : Expect err success",
        "    , timeout : Maybe Float",
        "    , tracker : Maybe String",
        "    \x7d"],
    customType "Response" none
      ["type Response body",
        "    = ResponseBadUrl String",
        "    | ResponseTimeout",
        "    | ResponseNetworkError",
        "    | ResponseBadStatus Metadata body",
        "    | ResponseGoodStatus Metadata body"],
    function "jsonErrorDecoder" none
      ["jsonErrorDecoder : Json.Decode.Decoder err -> String -> Result String err",
        "jsonErrorDecoder decoder body =",
        "    Json.Decode.decodeString decoder body",
        "        |> Result.mapError Json.Decode.errorToString"],
    function "textErrorDecoder" none
      ["textErrorDecoder : String -> Result String String",
        "textErrorDecoder body =",
        "    Ok body"],
    function "bytesErrorDecoder" none
      ["bytesErrorDecoder : String -> Result String Bytes.Bytes",
        "bytesErrorDecoder body =",
        "    Ok (Bytes.Encode.encode (Bytes.Encode.string body))"],
    function "unitErrorDecoder" none
      ["unitErrorDecoder : String -> Result String ()",
        "unitErrorDecoder _ =",
        "    Ok ()"],
    function "mapErrorDecoder" none
      ["mapErrorDecoder : (a -> b) -> (String -> Result String a) -> String -> Result String b",
        "mapErrorDecoder f decoder body =",
        "    Result.map f (decoder body)"],
    function "findErrorDecoder" (some "Exact status first, then its range, then `default`")
      ["findErrorDecoder : Int -> ErrorDecoders err -> Maybe (String -> Result String err)",
        "findErrorDecoder statusCode decoders =",
        "    let",
        "        status =",
        "            String.fromInt statusCode",
        "    in",
        "    case Dict.get status decoders of",
        "        Just decoder ->",
        "            Just decoder",
        "",
        "        Nothing ->",
        "            case Dict.get (String.left 1 status ++ \"XX\") decoders of",
        "                Just decoder ->",
        "                    Just decoder",
        "",
        "                Nothing ->",
        "                    Dict.get \"default\" decoders"],
    function "expectErrorDecoders" none
      ["expectErrorDecoders : Expect err success -> ErrorDecoders err",
        "expectErrorDecoders expect =",
        "    case expect of",
        "        ExpectJson decoders _ ->",
        "            decoders",
        "",
        "        ExpectString decoders _ ->",
        "            decoders",
        "",
        "        ExpectBytes decoders _ ->",
        "            decoders",
        "",
        "        ExpectWhatever decoders _ ->",
        "            decoders"],
    function "wantsBytes" none
      ["wantsBytes : Expect err success -> Bool",
        "wantsBytes expect =",
        "    case expect of",
        "        ExpectBytes _ _ ->",
        "            True",
        "",
        "        _ ->",
        "            False"],
    function "bytesToString" none
      ["bytesToString : Bytes.Bytes -> String",
        "bytesToString bytes =",
        "    Bytes.Decode.decode (Bytes.Decode.string (Bytes.width bytes)) bytes",
        "        |> Maybe.withDefault \"\""],
    function "resolveResponse" none
      ["resolveResponse : (body -> String) -> (Metadata -> body -> Result (Error err) success) -> "
          ++ "ErrorDecoders err -> Response body -> Result (Error err) success",
        "resolveResponse toText onSuccess decoders response =",
        "    case response of",
        "        ResponseBadUrl url ->",
        "            Err (BadUrl url)",
        "",
        "        ResponseTimeout ->",
        "            Err Timeout",
        "",
        "        ResponseNetworkError ->",
        "            Err NetworkError",
        "",
        "        ResponseBadStatus metadata body ->",
        "            let",
        "                text =",
        "                    toText body",
        "            in",
        "            case findErrorDecoder metadata.statusCode decoders of",
        "                Just decoder ->",
        "                    case decoder text of",
        "                        Ok error ->",
        "                            Err (KnownBadStatus metadata.statusCode error)",
        "",
        "                        Err problem ->",
        "                            Err (BadErrorBody metadata text problem)",
        "",
        "                Nothing ->",
        "                    Err (UnknownBadStatus metadata text)",
        "",
        "        ResponseGoodStatus metadata body ->",
        "            onSuccess metadata body"],
    function "stringSuccess" none
      ["stringSuccess : Expect err success -> Metadata -> String -> Result (Error err) success",
        "stringSuccess expect metadata body =",
        "    case expect of",
        "        ExpectJson _ decoder ->",
        "            Json.Decode.decodeString decoder body",
        "                |> Result.mapError "
          ++ "(\\problem -> BadBody metadata body (Json.Decode.errorToString problem))",
        "",
        "        ExpectString _ toSuccess ->",
        "            Ok (toSuccess body)",
        "",
        "        ExpectBytes _ toSuccess ->",
        "            Ok (toSuccess (Bytes.Encode.encode (Bytes.Encode.string body)))",
        "",
        "        ExpectWhatever _ success ->",
        "            Ok success"],
    function "resolveString" none
      ["resolveString : Expect err success -> Response String -> Result (Error err) success",
        "resolveString expect response =",
        "    resolveResponse identity (stringSuccess expect) "
          ++ "(expectErrorDecoders expect) response"],
    function "resolveBytes" none
      ["resolveBytes : Expect err success -> Response Bytes.Bytes -> Result (Error err) success",
        "resolveBytes expect response =",
        "    resolveResponse bytesToString",
        "        (\\metadata body ->",
        "            case expect of",
        "                ExpectBytes _ toSuccess ->",
        "                    Ok (toSuccess body)",
        "",
        "                _ ->",
        "                    stringSuccess expect metadata (bytesToString body)",
        "        )",
        "        (expectErrorDecoders expect)",
        "        response"]]

end Support

end ElmClient.Elm
