/-! Lower case and alphabetic extras, as tables.

`lowercase` sends every character that has a lower-case form of its own to that
form; where the full form is longer than one character, to its first one.
`alphanumericExtra` lists the characters that count as alphabetic or numeric
although their general category is neither letter nor number. -/
namespace PatternCompiler.Unicode.CaseTable

def lowercase : String :=
  "41-5a:61 c0-d6:e0 d8-de:f8 100-12e/2:101 130:69 132-136/2:133 139-147/2:13a 14a-176/2:14b
    178:ff 179-17d/2:17a 181:253 182-184/2:183 186:254 187:188 189-18a:256 18b:18c 18e:1dd
    18f:259 190:25b 191:192 193:260 194:263 196:269 197:268 198:199 19c:26f 19d:272 19f:275
    1a0-1a4/2:1a1 1a6:280 1a7:1a8 1a9:283 1ac:1ad 1ae:288 1af:1b0 1b1-1b2:28a 1b3-1b5/2:1b4
    1b7:292 1b8:1b9 1bc:1bd 1c4:1c6 1c5:1c6 1c7:1c9 1c8:1c9 1ca:1cc 1cb-1db/2:1cc 1de-1ee/2:1df
    1f1:1f3 1f2-1f4/2:1f3 1f6:195 1f7:1bf 1f8-21e/2:1f9 220:19e 222-232/2:223 23a:2c65 23b:23c
    23d:19a 23e:2c66 241:242 243:180 244:289 245:28c 246-24e/2:247 370-372/2:371 376:377 37f:3f3
    386:3ac 388-38a:3ad 38c:3cc 38e-38f:3cd 391-3a1:3b1 3a3-3ab:3c3 3cf:3d7 3d8-3ee/2:3d9
    3f4:3b8 3f7:3f8 3f9:3f2 3fa:3fb 3fd-3ff:37b 400-40f:450 410-42f:430 460-480/2:461
    48a-4be/2:48b 4c0:4cf 4c1-4cd/2:4c2 4d0-52e/2:4d1 531-556:561 10a0-10c5:2d00 10c7:2d27
    10cd:2d2d 13a0-13ef:ab70 13f0-13f5:13f8 1c89:1c8a 1c90-1cba:10d0 1cbd-1cbf:10fd
    1e00-1e94/2:1e01 1e9e:df 1ea0-1efe/2:1ea1 1f08-1f0f:1f00 1f18-1f1d:1f10 1f28-1f2f:1f20
    1f38-1f3f:1f30 1f48-1f4d:1f40 1f59-1f5f/2:1f51 1f68-1f6f:1f60 1f88-1f8f:1f80 1f98-1f9f:1f90
    1fa8-1faf:1fa0 1fb8-1fb9:1fb0 1fba-1fbb:1f70 1fbc:1fb3 1fc8-1fcb:1f72 1fcc:1fc3
    1fd8-1fd9:1fd0 1fda-1fdb:1f76 1fe8-1fe9:1fe0 1fea-1feb:1f7a 1fec:1fe5 1ff8-1ff9:1f78
    1ffa-1ffb:1f7c 1ffc:1ff3 2126:3c9 212a:6b 212b:e5 2132:214e 2160-216f:2170 2183:2184
    24b6-24cf:24d0 2c00-2c2f:2c30 2c60:2c61 2c62:26b 2c63:1d7d 2c64:27d 2c67-2c6b/2:2c68
    2c6d:251 2c6e:271 2c6f:250 2c70:252 2c72:2c73 2c75:2c76 2c7e-2c7f:23f 2c80-2ce2/2:2c81
    2ceb-2ced/2:2cec 2cf2:2cf3 a640-a66c/2:a641 a680-a69a/2:a681 a722-a72e/2:a723
    a732-a76e/2:a733 a779-a77b/2:a77a a77d:1d79 a77e-a786/2:a77f a78b:a78c a78d:265
    a790-a792/2:a791 a796-a7a8/2:a797 a7aa:266 a7ab:25c a7ac:261 a7ad:26c a7ae:26a a7b0:29e
    a7b1:287 a7b2:29d a7b3:ab53 a7b4-a7c2/2:a7b5 a7c4:a794 a7c5:282 a7c6:1d8e a7c7-a7c9/2:a7c8
    a7cb:264 a7cc-a7da/2:a7cd a7dc:19b a7f5:a7f6 ff21-ff3a:ff41 10400-10427:10428
    104b0-104d3:104d8 10570-1057a:10597 1057c-1058a:105a3 1058c-10592:105b3 10594-10595:105bb
    10c80-10cb2:10cc0 10d50-10d65:10d70 118a0-118bf:118c0 16e40-16e5f:16e60 16ea0-16eb8:16ebb
    1e900-1e921:1e922"

def alphanumericExtra : String :=
  "345 363-36f 5b0-5bd 5bf 5c1-5c2 5c4-5c5 5c7 610-61a 64b-657 659-65f 670 6d6-6dc 6e1-6e4
    6e7-6e8 6ed 711 730-73f 7a6-7b0 816-817 81b-823 825-827 829-82c 88f 897 8d4-8df 8e3-8e9
    8f0-903 93a-93b 93e-94c 94e-94f 955-957 962-963 981-983 9be-9c4 9c7-9c8 9cb-9cc 9d7 9e2-9e3
    a01-a03 a3e-a42 a47-a48 a4b-a4c a51 a70-a71 a75 a81-a83 abe-ac5 ac7-ac9 acb-acc ae2-ae3
    afa-afc b01-b03 b3e-b44 b47-b48 b4b-b4c b56-b57 b62-b63 b82 bbe-bc2 bc6-bc8 bca-bcc bd7
    c00-c04 c3e-c44 c46-c48 c4a-c4c c55-c56 c5c c62-c63 c81-c83 cbe-cc4 cc6-cc8 cca-ccc cd5-cd6
    cdc ce2-ce3 cf3 d00-d03 d3e-d44 d46-d48 d4a-d4c d57 d62-d63 d81-d83 dcf-dd4 dd6 dd8-ddf
    df2-df3 e31 e34-e3a e4d eb1 eb4-eb9 ebb-ebc ecd f71-f83 f8d-f97 f99-fbc 102b-1036 1038
    103b-103e 1056-1059 105e-1060 1062-1064 1067-106d 1071-1074 1082-108d 108f 109a-109d
    1712-1713 1732-1733 1752-1753 1772-1773 17b6-17c8 1885-1886 18a9 1920-192b 1930-1938
    1a17-1a1b 1a55-1a5e 1a61-1a74 1abf-1ac0 1acc-1ace 1b00-1b04 1b35-1b43 1b80-1b82 1ba1-1ba9
    1bac-1bad 1be7-1bf1 1c24-1c36 1c89-1c8a 1dd3-1df4 24b6-24e9 2de0-2dff a674-a67b a69e-a69f
    a7cb-a7cf a7d2 a7d4 a7da-a7dc a7f1 a802 a80b a823-a827 a880-a881 a8b4-a8c3 a8c5 a8ff
    a926-a92a a947-a952 a980-a983 a9b4-a9bf a9e5 aa29-aa36 aa43 aa4c-aa4d aa7b-aa7d aab0
    aab2-aab4 aab7-aab8 aabe aaeb-aaef aaf5 abe3-abea fb1e 10376-1037a 105c0-105f3 10940-10959
    10a01-10a03 10a05-10a06 10a0c-10a0f 10d24-10d27 10d40-10d65 10d69 10d6f-10d85 10eab-10eac
    10ec2-10ec7 10efa-10efc 11000-11002 11038-11045 11073-11074 11080-11082 110b0-110b8 110c2
    11100-11102 11127-11132 11145-11146 11180-11182 111b3-111bf 111ce-111cf 1122c-11234 11237
    1123e 11241 112df-112e8 11300-11303 1133e-11344 11347-11348 1134b-1134c 11357 11362-11363
    11380-11389 1138b 1138e 11390-113b5 113b7-113c0 113c2 113c5 113c7-113ca 113cc-113cd 113d1
    113d3 11435-11441 11443-11445 114b0-114c1 115af-115b5 115b8-115be 115dc-115dd 11630-1163e
    11640 116ab-116b5 116d0-116e3 1171d-1172a 1182c-11838 11930-11935 11937-11938 1193b-1193c
    11940 11942 119d1-119d7 119da-119df 119e4 11a01-11a0a 11a35-11a39 11a3b-11a3e 11a51-11a5b
    11a8a-11a97 11b60-11b67 11bc0-11be0 11bf0-11bf9 11c2f-11c36 11c38-11c3e 11c92-11ca7
    11ca9-11cb6 11d31-11d36 11d3a 11d3c-11d3d 11d3f-11d41 11d43 11d47 11d8a-11d8e 11d90-11d91
    11d93-11d96 11db0-11ddb 11de0-11de9 11ef3-11ef6 11f00-11f01 11f03 11f34-11f3a 11f3e-11f40
    13460-143fa 16100-1612e 16130-16139 16d40-16d6c 16d70-16d79 16ea0-16eb8 16ebb-16ed3 16f4f
    16f51-16f87 16f8f-16f92 16ff0-16ff6 187f8-187ff 18cff 18d09-18d1e 18d80-18df2 1bc9e
    1ccf0-1ccf9 1e000-1e006 1e008-1e018 1e01b-1e021 1e023-1e024 1e026-1e02a 1e08f 1e5d0-1e5ed
    1e5f0-1e5fa 1e6c0-1e6de 1e6e0-1e6f5 1e6fe-1e6ff 1e947 1f130-1f149 1f150-1f169 1f170-1f189
    2b73a-2b73f 2cea2-2cead 2ebf0-2ee5d 323b0-33479"

end PatternCompiler.Unicode.CaseTable
